/-
Reads into the blocks of `butil` (`ReadAwaiter` in `awaiter/socket_awaiter.hpp`).

`await_suspend` takes a block out of the chain of its thread, or a new one, and hands what the
block has left to the kernel.  The block may hold bytes of buffers already; it is nobody else's to
write into until `await_resume`, which runs on any thread, gives it back.  It leaves the chains for
good: its size is not advanced over the received bytes, and only the user data block that
`await_resume` appends refers to them.

* `Models.awaitSuspend`, `Models.complete`, `Models.awaitResume` — the three steps of a read;
* `Models.step`, `Models.run` — **every run does to the buffers what `Spec.step` says**;
* `Inv.reads_disjoint`, `Inv.read_buf_disjoint` — nobody else has the bytes handed to a read;
* `Inv.isSome_iff` — a block is allocated as long as a chain, a read or a buffer refers to it.
-/
import AntServer.IOBufContents

namespace IOBuf

section Reads

variable {s s' : State} {hand : List ℕ} {a : Spec} {cap t i x : ℕ}

/-! ### `await_suspend` -/

theorem spec_setRead (o : Option Read) :
    (s.setRead i o).spec = s.spec.setRead i (o.map fun r => (r.buf, r.result)) := by
  refine Spec.ext rfl (funext fun j => ?_)
  show ((s.setRead i o).reads j).map (fun r : Read => (r.buf, r.result)) =
    Function.update (fun j => (s.reads j).map fun r : Read => (r.buf, r.result)) i _ j
  by_cases hj : j = i
  · subst hj
    rw [State.setRead_self, Function.update_self]
  · rw [State.setRead_of_ne s hj, Function.update_of_ne hj]

theorem Models.setRead {hand' : List ℕ} (h : Models s hand a) {o : Option Read}
    (hinv : Inv (s.setRead i o) hand') :
    Models (s.setRead i o) hand' (a.setRead i (o.map fun r => (r.buf, r.result))) := by
  refine ⟨hinv, ?_⟩
  rw [spec_setRead, h.spec]

theorem reading_setRead (r : Read) : (s.setRead i (some r)).reading i = [r.block] :=
  reading_eq (State.setRead_self ..)

/-- A read takes a block from the hand that nobody else may write into. -/
theorem Inv.startRead {r : Read} (h : Inv s (r.block :: hand)) (hfree : Free s r.block)
    (hi : s.reads i = none) (hr : ∀ k, s.blocks r.block = some k → Handed s.memory r k) :
    Inv (s.setRead i (some r)) hand := by
  have hreading : (s.setRead i (some r)).reading i = r.block :: s.reading i := by
    rw [reading_setRead, reading_eq_nil hi]
  refine h.adopt hfree (p := .read i) rfl rfl rfl rfl rfl hreading hreading
    (fun q hq => held_setRead_of_ne hq) fun j w hw => ?_
  rcases s.setRead_cases hw with ⟨-, hw⟩ | ⟨-, hw⟩
  · obtain rfl := Option.some.inj hw
    exact Or.inr hr
  · exact Or.inl hw

theorem Models.awaitSuspend (h : Models s hand a) (hi : s.reads i = none) :
    Models (awaitSuspend cap t i x s) hand (a.setRead i (some (x, none))) := by
  obtain ⟨hinv, hkeeps, hfree⟩ := h.inv.acquireTlsBlock cap t
  obtain ⟨k, hk⟩ := hinv.counted.live (Or.inr List.mem_cons_self)
  rw [IOBuf.awaitSuspend]
  dsimp only
  rw [hk]
  refine (h.keeps hinv hkeeps).setRead (Inv.startRead hinv hfree ?_ fun k' hk' => ?_)
  · rw [hkeeps.reads]
    exact hi
  · obtain rfl := Option.some.inj (hk.symm.trans hk')
    exact ⟨rfl, rfl, nofun⟩

/-! ### Completion -/

theorem complete_cases {res : ℤ} {data : List UInt8} (h : complete i res data s = some s') :
    ∃ r, s.reads i = some r ∧ r.result = none ∧ data.length ≤ r.room ∧ res ≤ data.length ∧
      ∀ k, s.blocks r.block = some k →
        s' = (s.write r.block r.start data).setRead i
          (some { r with result := some (res, data.take res.toNat) }) := by
  rw [complete] at h
  split at h
  · rename_i b start room y hi
    obtain ⟨⟨hroom, hres⟩, h⟩ := Option.ite_none_right_eq_some.mp h
    refine ⟨⟨b, start, room, y, none⟩, hi, rfl, hroom, hres, fun k hk => ?_⟩
    rw [show s.blocks b = some k from hk] at h
    exact (Option.some.inj h).symm
  · cases h

/-- A read gets its result. -/
theorem Inv.setResult (h : Inv s hand) {r r' : Read} (hi : s.reads i = some r)
    (hblock : r'.block = r.block)
    (hr : ∀ k, s.blocks r'.block = some k → Handed s.memory r' k) :
    Inv (s.setRead i (some r')) hand := by
  have hheld : ∀ p, (s.setRead i (some r')).held p = s.held p := by
    intro p
    by_cases hp : p = .read i
    · subst hp
      show (s.setRead i (some r')).reading i = s.reading i
      rw [reading_setRead, reading_eq hi, hblock]
    · exact held_setRead_of_ne hp
  have hwritable : (s.setRead i (some r')).writable = s.writable :=
    funext fun p => writable_of_held (hheld p)
  refine ⟨h.counted.pass (p := .read i) rfl rfl (by rw [hheld]) fun q _ => hheld q, ?_⟩
  refine ⟨h.shape.fresh, h.shape.fits, ?_, ?_, ?_, h.shape.refs, fun j w hw k hk => ?_⟩
  · rw [hwritable]
    exact h.shape.separate
  · rw [hwritable]
    exact h.shape.own
  · rw [hwritable]
    exact h.shape.user
  · rcases s.setRead_cases hw with ⟨-, hw⟩ | ⟨-, hw⟩
    · obtain rfl := Option.some.inj hw
      exact hr k hk
    · exact h.shape.reads j w hw k hk

theorem Inv.live_read (h : Inv s hand) {r : Read} (hi : s.reads i = some r) :
    ∃ k, s.blocks r.block = some k :=
  h.counted.live (Or.inl ⟨.read i, s.writable_subset _ (mem_writable_read hi)⟩)

theorem Models.complete {res : ℤ} {data : List UInt8} (h : Models s hand a)
    (hs : complete i res data s = some s') :
    Models s' hand
      (a.setRead i ((a.reads i).map fun r => (r.1, some (res, data.take res.toNat)))) := by
  obtain ⟨r, hi, hnone, hroom, hres, hs'⟩ := complete_cases hs
  obtain ⟨k, hk⟩ := h.inv.live_read hi
  have hhanded := h.inv.shape.reads i r hi k hk
  obtain rfl := hs' k hk
  have hwrite : Models (s.write r.block r.start data) hand a := by
    refine h.write (p := .read i) (mem_writable_read hi) (fun j w hj hw => ?_) hk
      hhanded.start.ge data
    obtain rfl := Holder.read.inj hj
    obtain rfl := Option.some.inj (hi.symm.trans hw)
    exact hnone
  rw [← h.reads i, hi]
  refine hwrite.setRead (hwrite.inv.setResult hi rfl fun k' hk' => ?_)
  obtain rfl := Option.some.inj (hk.symm.trans hk')
  refine ⟨hhanded.start, hhanded.room, fun res' bytes hbytes => ?_⟩
  obtain ⟨rfl, rfl⟩ := Prod.mk.inj (Option.some.inj hbytes)
  have hlen : (data.take res.toNat).length = res.toNat := by
    rw [List.length_take]
    omega
  refine ⟨hlen, ?_, ?_⟩
  · rw [hlen]
    show res.toNat ≤ r.room
    omega
  · show slice (s.write r.block r.start data).memory r.block r.start _ = _
    rw [hlen, ← slice_take (n := data.length) (by omega), slice_write]

/-! ### `await_resume` -/

theorem awaitResume_cases (h : awaitResume i s = some s') :
    ∃ r res bytes, s.reads i = some r ∧ r.result = some (res, bytes) ∧
      (0 < res → ∀ k, s.blocks r.block = some k →
        s' = decRef (appendUserData r.buf r.block k.size res.toNat
          (incRef (s.setRead i none) r.block)) r.block) ∧
      (¬ 0 < res → s' = decRef (s.setRead i none) r.block) := by
  rw [awaitResume] at h
  split at h
  · rename_i b start room y res bytes hi
    refine ⟨⟨b, start, room, y, some (res, bytes)⟩, res, bytes, hi, rfl, fun hpos k hk => ?_,
      fun hneg => ?_⟩
    · have hk' : (s.setRead i none).blocks b = some k := hk
      rw [if_pos hpos, hk'] at h
      exact (Option.some.inj h).symm
    · rw [if_neg hneg] at h
      exact (Option.some.inj h).symm
  · cases h

/-- **`append_user_data`** of bytes that lie behind the size of a block; the reference that the
deleter is to give back comes from the hand. -/
theorem Models.appendUserData {b n : ℕ} {k : Block} (h : Models s (b :: hand) a)
    (hk : s.blocks b = some k) (hout : ¬ Within s.writable b) (hown : k.kind = .own)
    (hn : 0 < n) (hroom : k.size + n ≤ k.cap) :
    Models (appendUserData x b k.size n s) hand
      (a.setBuf x (a.bufs x ++ slice s.memory b k.size n)) := by
  have hnew : Inv (allocate ⟨1, n, n, .user b k.size⟩ s) (s.fresh :: hand) := by
    refine Inv.allocate (k := ⟨1, n, n, .user b k.size⟩) h.inv rfl le_rfl
      fun target start hkind => ?_
    obtain ⟨rfl, rfl⟩ := Kind.user.inj hkind
    refine ⟨hout, fun k' hk' => ?_⟩
    obtain rfl := Option.some.inj (hk.symm.trans hk')
    exact ⟨hown, le_rfl, hroom⟩
  have hku : (allocate ⟨1, n, n, .user b k.size⟩ s).blocks s.fresh =
      some ⟨1, n, n, .user b k.size⟩ :=
    State.setBlock_self ..
  have hmove := (h.keeps hnew (Keeps.allocate _)).moveBackRef (x := x) (r := ⟨0, n, s.fresh⟩) hku
    ⟨hn, (Nat.zero_add n).le⟩
  rw [refBytes_eq (r := ⟨0, n, s.fresh⟩) hku] at hmove
  rw [IOBuf.appendUserData, if_neg hn.ne']
  exact hmove

theorem Models.awaitResume (h : Models s hand a) (hs : awaitResume i s = some s') :
    ∃ r res bytes, s.reads i = some r ∧ r.result = some (res, bytes) ∧
      bytes.length = res.toNat ∧
      Models s' hand ((a.setRead i none).setBuf r.buf (a.bufs r.buf ++ bytes)) := by
  obtain ⟨r, res, bytes, hi, hres, hpos, hneg⟩ := awaitResume_cases hs
  obtain ⟨k, hk⟩ := h.inv.live_read hi
  obtain ⟨hstart, hroom, hreceived⟩ := h.inv.shape.reads i r hi k hk
  obtain ⟨hlen, hle, hslice⟩ := hreceived res bytes hres
  refine ⟨r, res, bytes, hi, hres, hlen, ?_⟩
  have hdrop : Models (s.setRead i none) (r.block :: hand) (a.setRead i none) :=
    h.setRead (h.inv.dropRead hi)
  by_cases hsign : 0 < res
  · rw [hpos hsign k hk]
    have hfree : Free (s.setRead i none) r.block := by
      refine h.inv.free_of_unwritten (mem_writable_read hi) rfl
        (fun q hq => writable_of_held (held_setRead_of_ne hq)) ?_
      show r.block ∉ (s.setRead i none).reading i
      rw [reading_eq_nil (State.setRead_self ..)]
      exact List.not_mem_nil
    have hkd : (s.setRead i none).blocks r.block = some k := hk
    have hrecounts := incRef_recounts hkd
    -- the read has its reference and takes another one for the deleter
    have hinc := hdrop.recounts ⟨hdrop.inv.incRef hkd, hrecounts⟩
    have hki : (incRef (s.setRead i none) r.block).blocks r.block =
        some { k with nshared := k.nshared + 1 } := by
      rw [incRef_eq hkd, State.setBlock_self]
    have hout : ¬ Within (incRef (s.setRead i none) r.block).writable r.block := by
      rw [hrecounts.writable]
      exact hfree.unwritten
    have hfits := h.inv.shape.fits r.block k hk
    have happend := hinc.appendUserData (x := r.buf) (n := res.toNat) hki hout
      (hfree.own k hk) (by omega) (by show k.size + _ ≤ k.cap; omega)
    have hbytes : slice (incRef (s.setRead i none) r.block).memory r.block k.size res.toNat =
        bytes := by
      rw [hrecounts.memory, ← hlen, ← hstart]
      exact hslice
    have hback := happend.recounts happend.inv.decRef
    dsimp only at hback
    rwa [hbytes] at hback
  · rw [hneg hsign]
    have hnil : bytes = [] := List.eq_nil_of_length_eq_zero (by omega)
    rw [hnil, List.append_nil]
    exact (Spec.setBuf_bufs (a.setRead i none) r.buf).symm ▸ hdrop.recounts hdrop.inv.decRef

/-! ### Runs -/

theorem Models.step {l : Label} (hcap : 0 < cap) (h : Models s hand a)
    (hs : step cap s l = some s') : Models s' hand (a.step l) := by
  cases l with
  | suspend t i x =>
    obtain ⟨hi, hs⟩ := Option.ite_none_right_eq_some.mp hs
    obtain rfl := Option.some.inj hs
    exact h.awaitSuspend hi
  | complete i res data => exact h.complete hs
  | resume i =>
    obtain ⟨r, res, bytes, hi, hres, -, hresume⟩ := h.awaitResume hs
    have hreads : a.reads i = some (r.buf, some (res, bytes)) := by
      rw [← h.reads i, hi, Option.map_some, hres]
    rw [Spec.step, hreads]
    exact hresume
  | append t x data =>
    obtain rfl := Option.some.inj hs
    exact h.append hcap data
  | appendBuf x y =>
    obtain ⟨hxy, hs⟩ := Option.ite_none_right_eq_some.mp hs
    obtain rfl := Option.some.inj hs
    exact h.appendBuf hxy.symm
  | popFront x n =>
    obtain rfl := Option.some.inj hs
    exact h.popFront n
  | clear x =>
    obtain rfl := Option.some.inj hs
    exact h.clear
  | exit t =>
    obtain rfl := Option.some.inj hs
    exact h.removeTlsBlockChain

theorem Models.run (hcap : 0 < cap) {ls : List Label}
    (hrun : StepSystem.run (IOBuf.step cap) init ls = some s) :
    Models s [] (ls.foldl Spec.step Spec.init) := by
  refine StepSystem.run_induction (R := fun ls s => Models s [] (ls.foldl Spec.step Spec.init))
    models_init (fun ls m l m' hm hl => ?_) hrun
  rw [List.foldl_concat]
  exact hm.step hcap hl

/-! ### Who has which bytes -/

/-- The bytes handed to a read, each by its block and its place there, until it is resumed. -/
def State.readRange (s : State) (i : ℕ) : Set (ℕ × ℕ) :=
  {p | ∃ r, s.reads i = some r ∧ p.1 = r.block ∧ r.start ≤ p.2 ∧ p.2 < r.start + r.room}

/-- The bytes that the references of a buffer are to. -/
def State.bufRange (s : State) (x : ℕ) : Set (ℕ × ℕ) :=
  {p | ∃ r ∈ s.bufs x, ∃ base, s.base r.block = some base ∧ p.1 = base.1 ∧
    base.2 + r.offset ≤ p.2 ∧ p.2 < base.2 + r.offset + r.length}

/-- A chain, a read, or a buffer refers to the block, the buffer perhaps through a user data
block. -/
def State.Refers (s : State) (b : ℕ) : Prop :=
  (∃ t, b ∈ s.tls t) ∨ (∃ i r, s.reads i = some r ∧ r.block = b) ∨
    ∃ x, ∃ r ∈ s.bufs x,
      r.block = b ∨ ∃ k start, s.blocks r.block = some k ∧ k.kind = .user b start

theorem Inv.reads_disjoint (h : Inv s hand) {j : ℕ} (hij : i ≠ j) :
    Disjoint (s.readRange i) (s.readRange j) := by
  rw [Set.disjoint_left]
  rintro p ⟨r, hi, hr, -⟩ ⟨w, hj, hw, -⟩
  refine h.ne_of_writable (mem_writable_read hj) (mem_writable_read hi) (fun heq => ?_)
    (hr.symm.trans hw)
  exact hij (Holder.read.inj heq)

theorem Inv.read_buf_disjoint (h : Inv s hand) :
    Disjoint (s.readRange i) (s.bufRange x) := by
  rw [Set.disjoint_left]
  rintro p ⟨r, hi, hr, hstart, -⟩ ⟨ref, href, base, hbase, hp, -, hlt⟩
  obtain ⟨m, hm⟩ := h.live_ref href
  rw [base_eq hm] at hbase
  obtain rfl := Option.some.inj hbase
  cases hkind : m.kind with
  | own =>
    -- the buffer has bytes before the size of the block alone, the read those behind it
    rw [hkind] at hp hlt
    have hblock : ref.block = r.block := hp.symm.trans hr
    have hhanded := h.shape.reads i r hi m (hblock ▸ hm)
    have hfits := (h.shape.refs x ref href m hm).2
    have hend : p.2 < 0 + ref.offset + ref.length := hlt
    rw [hhanded.start] at hstart
    omega
  | user target start =>
    rw [hkind] at hp
    have htarget : target = r.block := hp.symm.trans hr
    exact (h.shape.user ref.block m target start hm hkind).1
      ⟨.read i, htarget ▸ mem_writable_read hi⟩

/-- Only buffers hold user data blocks. -/
theorem Inv.user_in_buf (h : Inv s []) {u b start : ℕ} {k : Block} (hk : s.blocks u = some k)
    (hkind : k.kind = .user b start) : ∃ x, ∃ r ∈ s.bufs x, r.block = u := by
  have hwritten : ∀ p, u ∉ s.writable p := by
    intro p hp
    cases (h.shape.own p u hp k hk).symm.trans hkind
  have hheld := h.counted.isSome_iff.mp (Option.isSome_iff_exists.mpr ⟨k, hk⟩)
  obtain ⟨p, hp⟩ := hheld.resolve_right List.not_mem_nil
  cases p with
  | tls t => exact absurd hp (hwritten (.tls t))
  | read i => exact absurd hp (hwritten (.read i))
  | buf x =>
    obtain ⟨r, hr, hru⟩ := List.mem_map.mp hp
    exact ⟨x, r, hr, hru⟩
  | deleter v =>
    obtain ⟨m, start', hm, hmkind⟩ := mem_targets hp
    have hborrows := (h.shape.user v m u start' hm hmkind).2 k hk
    cases hborrows.own.symm.trans hkind

theorem Inv.isSome_iff (h : Inv s []) (b : ℕ) : (s.blocks b).isSome ↔ s.Refers b := by
  rw [h.counted.isSome_iff]
  constructor
  · intro hb
    obtain ⟨p, hp⟩ := hb.resolve_right List.not_mem_nil
    cases p with
    | tls t => exact Or.inl ⟨t, hp⟩
    | read i =>
      cases hi : s.reads i with
      | none =>
        exact absurd (reading_eq_nil hi ▸ hp : b ∈ ([] : List ℕ)) List.not_mem_nil
      | some r =>
        have hb : b ∈ [r.block] := reading_eq hi ▸ hp
        exact Or.inr (Or.inl ⟨i, r, hi, (List.mem_singleton.mp hb).symm⟩)
    | buf x =>
      obtain ⟨r, hr, hrb⟩ := List.mem_map.mp hp
      exact Or.inr (Or.inr ⟨x, r, hr, Or.inl hrb⟩)
    | deleter u =>
      obtain ⟨k, start, hk, hkind⟩ := mem_targets hp
      obtain ⟨x, r, hr, rfl⟩ := h.user_in_buf hk hkind
      exact Or.inr (Or.inr ⟨x, r, hr, Or.inr ⟨k, start, hk, hkind⟩⟩)
  · rintro (⟨t, ht⟩ | ⟨i, r, hi, rfl⟩ | ⟨x, r, hr, rfl | ⟨k, start, hk, hkind⟩⟩)
    · exact Or.inl ⟨.tls t, ht⟩
    · exact Or.inl ⟨.read i, s.writable_subset _ (mem_writable_read hi)⟩
    · exact Or.inl ⟨.buf x, List.mem_map_of_mem hr⟩
    · refine Or.inl ⟨.deleter r.block, ?_⟩
      show b ∈ s.targets r.block
      rw [targets_eq hk, hkind]
      exact List.mem_singleton_self b

/-- **Reads do not disturb buffers, and buffers do not disturb reads.**  In every run the bytes
handed to the reads are pairwise disjoint and no buffer's; the buffers are the sequences of bytes
that the calls make of them; a resumed read appends exactly what it received; and the count of a
block is the number of the references that there are to it, so that it is allocated exactly as
long as a chain, a read or a buffer refers to it. -/
theorem read_buffers (hcap : 0 < cap) {ls : List Label}
    (hrun : StepSystem.run (IOBuf.step cap) init ls = some s) :
    (∀ i j, i ≠ j → Disjoint (s.readRange i) (s.readRange j)) ∧
    (∀ i x, Disjoint (s.readRange i) (s.bufRange x)) ∧
    s.spec = ls.foldl Spec.step Spec.init ∧
    (∀ i s', IOBuf.step cap s (.resume i) = some s' →
      ∃ r res bytes, s.reads i = some r ∧ r.result = some (res, bytes) ∧
        bytes.length = res.toNat ∧
        contents s' = Function.update (contents s) r.buf (contents s r.buf ++ bytes) ∧
        (res ≤ 0 → contents s' = contents s)) ∧
    s.bad = false ∧ (∀ b, s.refs b = RefCount.total s.held b) ∧
    ∀ b, (s.blocks b).isSome ↔ s.Refers b := by
  have h := Models.run hcap hrun
  refine ⟨fun i j hij => h.inv.reads_disjoint hij, fun i x => h.inv.read_buf_disjoint, h.spec,
    fun i s' hs => ?_, h.inv.counted.tame, fun b => ?_, h.inv.isSome_iff⟩
  · obtain ⟨r, res, bytes, hi, hres, hlen, hresume⟩ := h.awaitResume hs
    have hcontents : contents s' =
        Function.update (contents s) r.buf (contents s r.buf ++ bytes) := by
      rw [show contents s = (ls.foldl Spec.step Spec.init).bufs from congrArg Spec.bufs h.spec]
      exact congrArg Spec.bufs hresume.spec
    refine ⟨r, res, bytes, hi, hres, hlen, hcontents, fun hneg => ?_⟩
    have hnil : bytes = [] := List.eq_nil_of_length_eq_zero (by omega)
    rw [hcontents, hnil, List.append_nil, Function.update_eq_self]
  · exact h.inv.counted.balanced.count b

/-- The first read gets a block that the buffer `0` has bytes in, the second one a new block.  The
first block stays while the buffer `2` has what was received; the second read is canceled, and its
block is freed. -/
theorem read_buffers_shared_block :
    ∃ s, StepSystem.run (IOBuf.step 8) init
        [.append 0 0 [1, 2, 3], .suspend 0 0 1, .suspend 0 1 2, .append 0 0 [4, 5],
          .complete 0 2 [9, 8, 7], .complete 1 (-125) [6], .resume 0, .resume 1,
          .appendBuf 2 1, .clear 0, .clear 1, .exit 0] = some s ∧
      contents s 2 = [9, 8] ∧ (s.blocks 0).isSome ∧ (s.blocks 1).isSome = false ∧
      (∀ i x, Disjoint (s.readRange i) (s.bufRange x)) ∧ s.refs 0 = RefCount.total s.held 0 ∧
      s.Refers 0 ∧ ¬ s.Refers 1 := by
  have hrun : ∃ s, StepSystem.run (IOBuf.step 8) init
      [.append 0 0 [1, 2, 3], .suspend 0 0 1, .suspend 0 1 2, .append 0 0 [4, 5],
        .complete 0 2 [9, 8, 7], .complete 1 (-125) [6], .resume 0, .resume 1,
        .appendBuf 2 1, .clear 0, .clear 1, .exit 0] = some s ∧
      (contents s 2 = [9, 8] ∧ (s.blocks 0).isSome ∧ (s.blocks 1).isSome = false) :=
    StepSystem.exists_of_run_any (by decide +kernel)
  obtain ⟨s, hs, hcontents, hlive, hfreed⟩ := hrun
  obtain ⟨-, hdisjoint, -, -, -, hrefs, hiff⟩ := read_buffers (by decide) hs
  refine ⟨s, hs, hcontents, hlive, hfreed, hdisjoint, hrefs 0, (hiff 0).mp hlive, fun hrefers => ?_⟩
  rw [(hiff 1).mpr hrefers] at hfreed
  cases hfreed

end Reads

end IOBuf
