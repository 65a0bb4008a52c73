/-
The buffers of `butil` are sequences of bytes.

`Models s hand a` says that the blocks are well counted and that the buffers and the reads are
those of `a`.  Each function of `IOBuf` keeps it, and does to `a` what it is meant for: writing
behind the size of a block, counting and moving blocks change no buffer, and `_push_back_ref`
appends the bytes of its reference also where it merges it into the last one.

* `Models.keeps` — steps that move blocks alone;
* `Models.append`, `Models.appendBuf`, `Models.popFront`, `Models.clear` — **the calls on buffers do
  what they are for**.
-/
import AntServer.IOBufInvariant

namespace IOBuf

/-! ### Bytes of a block -/

section Slice

variable {memory : ℕ → ℕ → UInt8} {b o m n : ℕ}

@[simp] theorem slice_length : (slice memory b o n).length = n := by
  rw [slice, List.length_map, List.length_range]

theorem slice_add : slice memory b o (m + n) = slice memory b o m ++ slice memory b (o + m) n := by
  rw [slice, List.range_add, List.map_append, List.map_map]
  congr 1
  refine List.map_congr_left fun k _ => ?_
  show memory b (o + (m + k)) = memory b (o + m + k)
  rw [Nat.add_assoc]

theorem slice_drop (h : m ≤ n) :
    (slice memory b o n).drop m = slice memory b (o + m) (n - m) := by
  have hsplit : slice memory b o n = slice memory b o m ++ slice memory b (o + m) (n - m) := by
    rw [← slice_add, Nat.add_sub_cancel' h]
  rw [hsplit, List.drop_left' slice_length]

theorem slice_take (h : m ≤ n) : (slice memory b o n).take m = slice memory b o m := by
  have hsplit : slice memory b o n = slice memory b o m ++ slice memory b (o + m) (n - m) := by
    rw [← slice_add, Nat.add_sub_cancel' h]
  rw [hsplit, List.take_left' slice_length]

/-- What was written is there. -/
theorem slice_write {s : State} {data : List UInt8} :
    slice (s.write b o data).memory b o data.length = data := by
  refine List.ext_getElem slice_length fun k _ hk => ?_
  have hin : b = b ∧ o ≤ o + k ∧ o + k < o + data.length := ⟨rfl, Nat.le_add_right o k, by omega⟩
  have hwritten : (s.write b o data).memory b (o + k) = data.getD (o + k - o) 0 := if_pos hin
  simp only [slice, List.getElem_map, List.getElem_range]
  rw [hwritten, Nat.add_sub_cancel_left, List.getD_eq_getElem?_getD, List.getElem?_eq_getElem hk]
  rfl

/-- What lies before it is as it was. -/
theorem slice_write_before {s : State} {data : List UInt8} {offset : ℕ} (h : o + n ≤ offset) :
    slice (s.write b offset data).memory b o n = slice s.memory b o n := by
  refine List.map_congr_left fun k hk => if_neg fun hin => ?_
  have hlt := List.mem_range.mp hk
  omega

end Slice

/-! ### Bytes of a reference -/

section Contents

variable {s s' : State} {hand hand' : List ℕ} {b x : ℕ} {r : BlockRef} {k : Block}

theorem base_eq (hk : s.blocks b = some k) : s.base b = some (k.kind.base b) := by
  rw [State.base, hk]
  rfl

theorem refBytes_eq (hk : s.blocks r.block = some k) :
    refBytes s r = slice s.memory (k.kind.base r.block).1 ((k.kind.base r.block).2 + r.offset)
      r.length := by
  rw [refBytes, base_eq hk]
  rfl

theorem refBytes_length (hk : s.blocks r.block = some k) : (refBytes s r).length = r.length := by
  rw [refBytes_eq hk, slice_length]

theorem refBytes_congr (hmemory : s'.memory = s.memory)
    (hbase : s'.base r.block = s.base r.block) : refBytes s' r = refBytes s r := by
  rw [refBytes, hmemory, hbase]
  rfl

/-- A reference that goes on from another one. -/
theorem refBytes_merge {back : BlockRef} (hblock : back.block = r.block)
    (hends : back.offset + back.length = r.offset) (hk : s.blocks r.block = some k) :
    refBytes s { back with length := back.length + r.length } =
      refBytes s back ++ refBytes s r := by
  have hback : s.blocks back.block = some k := hblock ▸ hk
  have hmerged : refBytes s { back with length := back.length + r.length } =
      slice s.memory (k.kind.base back.block).1 ((k.kind.base back.block).2 + back.offset)
        (back.length + r.length) :=
    refBytes_eq (r := { back with length := back.length + r.length }) hback
  rw [hmerged, slice_add, refBytes_eq hback, refBytes_eq hk, hblock, ← hends, Nat.add_assoc]

theorem Inv.live_ref (h : Inv s hand) (hr : r ∈ s.bufs x) : ∃ k, s.blocks r.block = some k :=
  h.counted.live (Or.inl ⟨.buf x, List.mem_map_of_mem hr⟩)

theorem contents_length (h : Inv s hand) : (contents s x).length = length (s.bufs x) := by
  rw [contents, length, List.length_flatMap]
  congr 1
  refine List.map_congr_left fun r hr => ?_
  obtain ⟨k, hk⟩ := h.live_ref hr
  exact refBytes_length hk

/-! ### The specification -/

/-- The state is well counted and does what the specification says. -/
structure Models (s : State) (hand : List ℕ) (a : Spec) : Prop where
  inv : Inv s hand
  spec : s.spec = a

variable {a : Spec}

theorem models_init : Models init [] Spec.init := ⟨inv_init, rfl⟩

theorem Models.contents (h : Models s hand a) : contents s x = a.bufs x :=
  congrFun (congrArg Spec.bufs h.spec) x

theorem Models.reads (h : Models s hand a) (i : ℕ) :
    (s.reads i).map (fun r => (r.buf, r.result)) = a.reads i :=
  congrFun (congrArg Spec.reads h.spec) i

theorem spec_congr (hbufs : s'.bufs = s.bufs) (hreads : s'.reads = s.reads)
    (hbytes : ∀ x, ∀ r ∈ s.bufs x, refBytes s' r = refBytes s r) : s'.spec = s.spec := by
  refine Spec.ext (funext fun x => ?_) ?_
  · show (s'.bufs x).flatMap (refBytes s') = (s.bufs x).flatMap (refBytes s)
    rw [hbufs]
    exact List.flatMap_congr fun r hr => hbytes x r hr
  · show (fun i => (s'.reads i).map _) = _
    rw [hreads]
    rfl

/-- **Moving blocks changes no buffer.** -/
theorem Models.keeps (h : Models s hand a) (hinv : Inv s' hand') (hkeeps : Keeps s s') :
    Models s' hand' a := by
  refine ⟨hinv, (spec_congr hkeeps.bufs hkeeps.reads fun x r hr => ?_).trans h.spec⟩
  obtain ⟨k, hk⟩ := h.inv.live_ref hr
  obtain ⟨k', hk'⟩ := hinv.live_ref (hkeeps.bufs.symm ▸ hr : r ∈ s'.bufs x)
  obtain ⟨k₀, hk₀, hkind⟩ := hkeeps.kinds r.block k' (h.inv.shape.fresh r.block k hk) hk'
  refine refBytes_congr hkeeps.memory ?_
  rw [base_eq hk', base_eq hk₀, hkind]

theorem Models.recounts (h : Models s hand a) (hinv : Inv s' hand' ∧ Recounts s s') :
    Models s' hand' a :=
  h.keeps hinv.1 (.of_recounts hinv.2)

/-- Writing behind the size of a block changes none either. -/
theorem Models.write (h : Models s hand a) {p : Holder} (hb : b ∈ s.writable p)
    (hp : ∀ i r, p = .read i → s.reads i = some r → r.result = none)
    (hk : s.blocks b = some k) {offset : ℕ} (hoffset : k.size ≤ offset) (data : List UInt8) :
    Models (s.write b offset data) hand a := by
  suffices hspec : (s.write b offset data).spec = s.spec from
    ⟨h.inv.write hb hp offset data, hspec.trans h.spec⟩
  refine spec_congr rfl rfl fun x r hr => ?_
  obtain ⟨m, hm⟩ := h.inv.live_ref hr
  have hm' : (s.write b offset data).blocks r.block = some m := hm
  rw [refBytes_eq hm, refBytes_eq hm']
  cases hkind : m.kind with
  | own =>
    show slice (s.write b offset data).memory r.block _ _ = slice s.memory r.block _ _
    by_cases hrb : r.block = b
    · rw [hrb] at hm ⊢
      obtain rfl := Option.some.inj (hk.symm.trans hm)
      have hfits := (h.inv.shape.refs x r hr k (hrb ▸ hk)).2
      exact slice_write_before (by rw [Kind.base, Nat.zero_add]; exact hfits.trans hoffset)
    · exact slice_write_of_ne hrb
  | user target start =>
    -- nobody may write into the target of a user data block
    show slice (s.write b offset data).memory target _ _ = slice s.memory target _ _
    refine slice_write_of_ne ?_
    rintro rfl
    exact (h.inv.shape.user r.block m target start hm hkind).1 ⟨p, hb⟩

theorem spec_setBuf (refs : List BlockRef) :
    (s.setBuf x refs).spec = s.spec.setBuf x (refs.flatMap (refBytes s)) := by
  refine Spec.ext (funext fun y => ?_) rfl
  show ((s.setBuf x refs).bufs y).flatMap (refBytes s) = Function.update (IOBuf.contents s) x _ y
  by_cases hy : y = x
  · subst hy
    rw [State.setBuf_self, Function.update_self]
  · rw [State.setBuf_of_ne s hy, Function.update_of_ne hy]
    rfl

theorem Models.setBuf (h : Models s hand a) {refs : List BlockRef} {bytes : List UInt8}
    (hinv : Inv (s.setBuf x refs) hand') (hbytes : refs.flatMap (refBytes s) = bytes) :
    Models (s.setBuf x refs) hand' (a.setBuf x bytes) := by
  refine ⟨hinv, ?_⟩
  rw [spec_setBuf, h.spec, hbytes]

/-! ### `_push_back_ref` -/

theorem base_incRef (hk : s.blocks b = some k) (c : ℕ) : (incRef s b).base c = s.base c := by
  rw [incRef_eq hk]
  by_cases hc : c = b
  · subst hc
    rw [base_eq hk, base_eq (State.setBlock_self ..)]
  · rw [State.base, State.setBlock_of_ne s hc]
    rfl

theorem refBytes_incRef (hk : s.blocks b = some k) (r : BlockRef) :
    refBytes (incRef s b) r = refBytes s r :=
  refBytes_congr (incRef_recounts hk).memory (base_incRef hk r.block)

theorem contents_concat (r : BlockRef) :
    (s.bufs x ++ [r]).flatMap (refBytes s) = contents s x ++ refBytes s r := by
  rw [List.flatMap_append, List.flatMap_singleton]
  rfl

theorem contents_merge {back : BlockRef} (hends : Continues s x r back)
    (hk : s.blocks r.block = some k) :
    ((s.bufs x).dropLast ++ [{ back with length := back.length + r.length }]).flatMap
      (refBytes s) = contents s x ++ refBytes s r := by
  obtain ⟨hback, hblock, hends⟩ := hends
  obtain ⟨refs, hrefs⟩ := List.getLast?_eq_some_iff.mp hback
  rw [contents, hrefs, List.dropLast_concat, List.flatMap_append, List.flatMap_append,
    List.flatMap_singleton, List.flatMap_singleton, refBytes_merge hblock hends hk,
    List.append_assoc]

theorem Models.pushBackRef (h : Models s hand a) (hk : s.blocks r.block = some k)
    (hr : r.Fits k) :
    Models (pushBackRef false x r s) hand (a.setBuf x (a.bufs x ++ refBytes s r)) := by
  have hinv := h.inv.pushBackRef (x := x) hk hr
  rcases pushBackRef_cases false x r s with ⟨back, hends, heq⟩ | heq
  · rw [heq] at hinv ⊢
    exact h.setBuf hinv ((contents_merge hends hk).trans (by rw [h.contents]))
  · have hpush : IOBuf.pushBackRef false x r s =
        (incRef s r.block).setBuf x ((incRef s r.block).bufs x ++ [r]) := by
      rw [heq, (incRef_recounts hk).bufs, ← incRef_setBuf]
      rfl
    have hcounted : Models (incRef s r.block) (r.block :: hand) a :=
      h.recounts ⟨h.inv.incRef hk, incRef_recounts hk⟩
    rw [hpush] at hinv ⊢
    refine hcounted.setBuf hinv ?_
    rw [contents_concat, hcounted.contents, refBytes_incRef hk]

theorem Models.moveBackRef (h : Models s (r.block :: hand) a) (hk : s.blocks r.block = some k)
    (hr : r.Fits k) :
    Models (IOBuf.pushBackRef true x r s) hand (a.setBuf x (a.bufs x ++ refBytes s r)) := by
  have hinv := h.inv.moveBackRef (x := x) hk hr
  rcases pushBackRef_cases true x r s with ⟨back, hends, heq⟩ | heq
  · have hmerged := h.inv.merge hends (hr.of_live hk)
    rw [heq]
    exact (h.setBuf hmerged ((contents_merge hends hk).trans (by rw [h.contents]))).recounts
      hmerged.decRef
  · rw [heq] at hinv ⊢
    exact h.setBuf hinv ((contents_concat r).trans (by rw [h.contents]))

/-! ### `append` -/

theorem grow_setBuf {n : ℕ} (refs : List BlockRef) :
    grow b n (s.setBuf x refs) = (grow b n s).setBuf x refs := by
  have hsame : (s.setBuf x refs).blocks b = s.blocks b := rfl
  cases hk : s.blocks b with
  | none => rw [grow, grow, hsame, hk]; rfl
  | some k => rw [grow_eq hk, grow_eq (hsame.trans hk)]; rfl

theorem setBlock_setBlock (o o' : Option Block) :
    (s.setBlock b o).setBlock b o' = s.setBlock b o' := by
  rw [State.setBlock, State.setBlock, State.setBlock, Function.update_idem]

theorem grow_incRef {n : ℕ} (hk : s.blocks b = some k) :
    grow b n (incRef s b) = incRef (grow b n s) b := by
  rw [incRef_eq hk, grow_eq hk, grow_eq (State.setBlock_self ..),
    incRef_eq (State.setBlock_self ..), setBlock_setBlock, setBlock_setBlock]

/-- The code counts the new bytes of the block after the reference to them. -/
theorem grow_pushBackRef {n : ℕ} (hk : s.blocks r.block = some k) :
    grow r.block n (pushBackRef false x r s) = pushBackRef false x r (grow r.block n s) := by
  have hbufs : (grow r.block n s).bufs = s.bufs := by
    rw [grow_eq hk]
    rfl
  have hconcat : ∀ refs, grow r.block n (incRef (s.setBuf x refs) r.block) =
      incRef ((grow r.block n s).setBuf x refs) r.block := by
    intro refs
    rw [incRef_setBuf, incRef_setBuf, grow_setBuf, grow_incRef hk]
  rw [pushBackRef, pushBackRef, hbufs]
  split
  · split
    · exact grow_setBuf _
    · exact hconcat _
  · exact hconcat _

variable {cap t : ℕ}

/-- One round of `append`: the bytes go into a block of the chain that has room for them. -/
theorem Models.appendRound (h : Models s hand a) (hb : b ∈ s.tls t) (hk : s.blocks b = some k)
    (bytes : List UInt8) (hne : bytes ≠ []) (hroom : bytes.length ≤ k.cap - k.size) :
    Models (grow b bytes.length
        (IOBuf.pushBackRef false x ⟨k.size, bytes.length, b⟩ (s.write b k.size bytes)))
      hand (a.setBuf x (a.bufs x ++ bytes)) := by
  have hpos : 0 < bytes.length := List.length_pos_of_ne_nil hne
  have hfits := h.inv.shape.fits b k hk
  have hown := h.inv.shape.own (.tls t) b hb k hk
  have hwrite : Models (s.write b k.size bytes) hand a :=
    h.write (p := .tls t) hb nofun hk le_rfl bytes
  have hkw : (s.write b k.size bytes).blocks b = some k := hk
  have hgrow : Models (grow b bytes.length (s.write b k.size bytes)) hand a :=
    hwrite.keeps (hwrite.inv.grow hb hkw (by omega)) (Keeps.grow hkw)
  have hkg : (grow b bytes.length (s.write b k.size bytes)).blocks b =
      some { k with size := k.size + bytes.length } := by
    rw [grow_eq hkw, State.setBlock_self]
  have hcomm : grow b bytes.length (IOBuf.pushBackRef false x ⟨k.size, bytes.length, b⟩
        (s.write b k.size bytes)) =
      IOBuf.pushBackRef false x ⟨k.size, bytes.length, b⟩
        (grow b bytes.length (s.write b k.size bytes)) :=
    grow_pushBackRef (r := ⟨k.size, bytes.length, b⟩) hkw
  have hbytes : refBytes (grow b bytes.length (s.write b k.size bytes))
      ⟨k.size, bytes.length, b⟩ = bytes := by
    rw [refBytes_eq (r := ⟨k.size, bytes.length, b⟩) hkg, (Keeps.grow hkw).memory, hown]
    show slice _ b (0 + k.size) _ = bytes
    rw [Nat.zero_add, slice_write]
  rw [hcomm]
  have hpush := hgrow.pushBackRef (x := x) (r := ⟨k.size, bytes.length, b⟩) hkg ⟨hpos, le_rfl⟩
  rwa [hbytes] at hpush

theorem Models.appendLoop (hcap : 0 < cap) (fuel : ℕ) {data : List UInt8}
    (hfuel : data.length ≤ fuel) (h : Models s hand a) :
    Models (appendLoop cap t x fuel data s) hand (a.setBuf x (a.bufs x ++ data)) := by
  induction fuel generalizing data s a with
  | zero =>
    rw [List.eq_nil_of_length_eq_zero (Nat.le_zero.mp hfuel), List.append_nil, Spec.setBuf_bufs]
    exact h
  | succ fuel ih =>
    cases data with
    | nil =>
      rw [List.append_nil, Spec.setBuf_bufs]
      exact h
    | cons byte data =>
      obtain ⟨hinv, hkeeps, hb, k, hk, hroom⟩ := h.inv.shareTlsBlock (t := t) hcap
      have hshare := h.keeps hinv hkeeps
      unfold IOBuf.appendLoop
      dsimp only
      rw [hk]
      dsimp only
      generalize hnc : min (byte :: data).length (k.cap - k.size) = nc
      have hpos : 0 < nc := by
        rw [← hnc, List.length_cons]
        omega
      have htake : ((byte :: data).take nc).length = nc := by
        rw [List.length_take, ← hnc]
        omega
      have hne : (byte :: data).take nc ≠ [] := by
        intro hnil
        rw [hnil, List.length_nil] at htake
        omega
      have hdrop : ((byte :: data).drop nc).length ≤ fuel := by
        rw [List.length_drop]
        omega
      have hround := hshare.appendRound (x := x) hb hk _ hne (by omega)
      rw [htake] at hround
      have hrest := ih hdrop hround
      rwa [Spec.setBuf_self, Spec.setBuf_setBuf, List.append_assoc, List.take_append_drop] at hrest

theorem Models.append (h : Models s hand a) (hcap : 0 < cap) (data : List UInt8) :
    Models (append cap t x data s) hand (a.setBuf x (a.bufs x ++ data)) :=
  h.appendLoop hcap data.length le_rfl

/-! ### `append(other)` -/

theorem pushBackRef_bufs_of_ne {y : ℕ} (hy : y ≠ x) (hk : s.blocks r.block = some k) :
    (pushBackRef false x r s).bufs y = s.bufs y := by
  rcases pushBackRef_cases false x r s with ⟨back, -, heq⟩ | heq
  · rw [heq]
    exact State.setBuf_of_ne s hy _
  · rw [heq]
    have hk' : (s.setBuf x (s.bufs x ++ [r])).blocks r.block = some k := hk
    exact (congrFun (incRef_recounts hk').bufs y).trans (State.setBuf_of_ne s hy _)

theorem refBytes_pushBackRef (hk : s.blocks r.block = some k) (r' : BlockRef) :
    refBytes (pushBackRef false x r s) r' = refBytes s r' := by
  rcases pushBackRef_cases false x r s with ⟨back, -, heq⟩ | heq
  · rw [heq]
    rfl
  · rw [heq]
    have hk' : (s.setBuf x (s.bufs x ++ [r])).blocks r.block = some k := hk
    exact refBytes_incRef hk' r'

theorem Models.pushAll {y : ℕ} (hy : y ≠ x) (refs : List BlockRef)
    (hrefs : ∀ r ∈ refs, r ∈ s.bufs y) (h : Models s hand a) :
    Models (refs.foldl (fun s r => IOBuf.pushBackRef false x r s) s) hand
      (a.setBuf x (a.bufs x ++ refs.flatMap (refBytes s))) := by
  induction refs generalizing s a with
  | nil =>
    rw [List.flatMap_nil, List.append_nil, Spec.setBuf_bufs]
    exact h
  | cons r refs ih =>
    have hr := hrefs r List.mem_cons_self
    obtain ⟨k, hk⟩ := h.inv.live_ref hr
    have hpush := h.pushBackRef (x := x) hk (h.inv.shape.refs y r hr k hk)
    have hin : ∀ r' ∈ refs, r' ∈ (IOBuf.pushBackRef false x r s).bufs y := by
      intro r' hr'
      rw [pushBackRef_bufs_of_ne hy hk]
      exact hrefs r' (List.mem_cons_of_mem r hr')
    have hall := ih hin hpush
    rw [Spec.setBuf_self, Spec.setBuf_setBuf, List.append_assoc,
      List.flatMap_congr fun r' _ => refBytes_pushBackRef hk r'] at hall
    exact hall

theorem Models.appendBuf {y : ℕ} (h : Models s hand a) (hy : y ≠ x) :
    Models (appendBuf x y s) hand (a.setBuf x (a.bufs x ++ a.bufs y)) := by
  have hall := h.pushAll hy (s.bufs y) fun _ hr => hr
  rwa [show (s.bufs y).flatMap (refBytes s) = a.bufs y from h.contents] at hall

/-! ### `clear` and `pop_front` -/

/-- A buffer gives back the blocks `bs` and keeps `refs`. -/
theorem Models.dropRefs (h : Models s hand a) {refs : List BlockRef} {bs : List ℕ}
    (hperm : (refs.map BlockRef.block ++ bs).Perm ((s.bufs x).map BlockRef.block))
    (hrefs : ∀ r ∈ refs, ∀ k, s.blocks r.block = some k → r.Fits k) :
    Models (decRefAll (s.setBuf x refs) bs) hand (a.setBuf x (refs.flatMap (refBytes s))) := by
  have hinv : Inv (s.setBuf x refs) (bs ++ hand) := by
    refine h.inv.setBuf ?_ hrefs
    rw [← List.append_assoc]
    exact hperm.append_right hand
  exact (h.setBuf hinv rfl).recounts hinv.decRefAll

theorem Models.clear (h : Models s hand a) : Models (clear x s) hand (a.setBuf x []) := by
  have hperm : (([] : List BlockRef).map BlockRef.block ++ (s.bufs x).map BlockRef.block).Perm
      ((s.bufs x).map BlockRef.block) :=
    List.Perm.refl _
  exact h.dropRefs hperm nofun

section Pop

variable {n : ℕ} {refs : List BlockRef}

theorem popRefs_perm :
    ((popRefs n refs).1.map BlockRef.block ++ (popRefs n refs).2).Perm
      (refs.map BlockRef.block) := by
  fun_induction popRefs n refs with
  | case1 => exact List.Perm.refl _
  | case2 => rw [List.append_nil]
  | case3 => rw [List.append_nil]; exact List.Perm.refl _
  | case4 n r rest hn hlen refs' bs heq ih =>
    rw [heq] at ih
    exact List.perm_middle.trans (ih.cons r.block)

theorem popRefs_fits (hrefs : ∀ r ∈ refs, ∀ k, s.blocks r.block = some k → r.Fits k) :
    ∀ r ∈ (popRefs n refs).1, ∀ k, s.blocks r.block = some k → r.Fits k := by
  fun_induction popRefs n refs with
  | case1 => exact hrefs
  | case2 => exact hrefs
  | case3 n r rest hn hlen =>
    intro r' hr' k hk
    rcases List.mem_cons.mp hr' with rfl | hr'
    · have hfits := hrefs r List.mem_cons_self k hk
      refine ⟨Nat.sub_pos_of_lt hlen, ?_⟩
      show r.offset + n + (r.length - n) ≤ k.size
      have hend := hfits.2
      omega
    · exact hrefs r' (List.mem_cons_of_mem r hr') k hk
  | case4 n r rest hn hlen refs' bs heq ih =>
    rw [heq] at ih
    exact ih fun r' hr' => hrefs r' (List.mem_cons_of_mem r hr')

theorem popRefs_bytes (hlive : ∀ r ∈ refs, ∃ k, s.blocks r.block = some k) :
    (popRefs n refs).1.flatMap (refBytes s) = (refs.flatMap (refBytes s)).drop n := by
  fun_induction popRefs n refs with
  | case1 => rw [List.flatMap_nil, List.drop_nil]
  | case2 => rw [List.drop_zero]
  | case3 n r rest hn hlen =>
    obtain ⟨k, hk⟩ := hlive r List.mem_cons_self
    have hrest : refBytes s { r with offset := r.offset + n, length := r.length - n } =
        (refBytes s r).drop n := by
      rw [refBytes_eq hk, slice_drop hlen.le, Nat.add_assoc]
      exact refBytes_eq (r := { r with offset := r.offset + n, length := r.length - n }) hk
    rw [List.flatMap_cons, List.flatMap_cons, hrest, List.drop_append_of_le_length]
    rw [refBytes_length hk]
    exact hlen.le
  | case4 n r rest hn hlen refs' bs heq ih =>
    obtain ⟨k, hk⟩ := hlive r List.mem_cons_self
    have hall : (refBytes s r).drop n = [] := by
      refine List.drop_eq_nil_of_le ?_
      rw [refBytes_length hk]
      exact not_lt.mp hlen
    rw [heq] at ih
    rw [ih fun r' hr' => hlive r' (List.mem_cons_of_mem r hr'), List.flatMap_cons,
      List.drop_append, refBytes_length hk, hall, List.nil_append]

end Pop

theorem Models.popFront (h : Models s hand a) (n : ℕ) :
    Models (popFront x n s) hand (a.setBuf x ((a.bufs x).drop n)) := by
  rw [IOBuf.popFront]
  split
  · rename_i hall
    rw [List.drop_eq_nil_of_le]
    · exact h.clear
    · rw [← h.contents, contents_length h.inv]
      exact hall
  · rw [← h.contents, IOBuf.contents, ← popRefs_bytes fun r hr => h.inv.live_ref hr]
    exact h.dropRefs popRefs_perm (popRefs_fits (h.inv.shape.refs x))

/-- A thread that exits gives its chain back. -/
theorem Models.removeTlsBlockChain (h : Models s hand a) :
    Models (removeTlsBlockChain t s) hand a := by
  have hdrop : Inv (s.setTls t []) (s.tls t ++ hand) :=
    h.inv.dropTls (List.append_nil _).symm
  exact (h.keeps hdrop (Keeps.setTls s t [])).recounts hdrop.decRefAll

end Contents

end IOBuf
