/-
Who holds the blocks of the buffers, and who may write into them.

A block is held by the chain of a thread, by a read, by a buffer for each of its references, and
by the deleter of a user data block.  It may be written into only where it is in a chain or in a
read: such a block is there once, its bytes from `size` on are nobody's, and no user data block
points into it.

* `Counted` — `nshared` is the number of holders, but for the references in `hand`;
* `Shape` — what the blocks, the references and the reads look like;
* `Inv.allocate`, `Inv.decRef`, `Inv.adopt`, `Inv.pushBackRef` and the others — **every function
  keeps both**, with what it takes from the hand and leaves in it;
* `Keeps` — what the functions that only move blocks leave as it was.
-/
import AntServer.IOBuf
import AntServer.Places
import AntServer.RefCount

namespace IOBuf

open RefCount (Balanced)

/-! ### Holders -/

inductive Holder
  | tls (t : ℕ)
  | read (i : ℕ)
  | buf (x : ℕ)
  | deleter (u : ℕ)
deriving DecidableEq, Repr

def State.targets (s : State) (u : ℕ) : List ℕ :=
  (s.blocks u).elim [] fun k => k.kind.target.toList

def State.reading (s : State) (i : ℕ) : List ℕ := (s.reads i).elim [] fun r => [r.block]

def State.held (s : State) : Holder → List ℕ
  | .tls t => s.tls t
  | .read i => s.reading i
  | .buf x => (s.bufs x).map BlockRef.block
  | .deleter u => s.targets u

/-- The blocks that the holder may write into. -/
def State.writable (s : State) : Holder → List ℕ
  | .tls t => s.tls t
  | .read i => s.reading i
  | _ => []

def State.refs (s : State) (b : ℕ) : ℕ := (s.blocks b).elim 0 Block.nshared

theorem State.writable_subset (s : State) (p : Holder) : s.writable p ⊆ s.held p := by
  cases p with
  | tls t => exact fun _ h => h
  | read i => exact fun _ h => h
  | buf x => exact List.nil_subset _
  | deleter u => exact List.nil_subset _

theorem reading_eq {s : State} {i : ℕ} {r : Read} (hi : s.reads i = some r) :
    s.reading i = [r.block] := by
  rw [State.reading, hi]
  rfl

theorem reading_eq_nil {s : State} {i : ℕ} (hi : s.reads i = none) : s.reading i = [] := by
  rw [State.reading, hi]
  rfl

theorem mem_writable_read {s : State} {i : ℕ} {r : Read} (hi : s.reads i = some r) :
    r.block ∈ s.writable (.read i) := by
  show r.block ∈ s.reading i
  rw [reading_eq hi]
  exact List.mem_singleton_self _

/-- The counts are right, with the references in `hand`. -/
structure Counted (s : State) (hand : List ℕ) : Prop where
  tame : s.bad = false
  balanced : Balanced s.refs s.held hand
  positive : ∀ b k, s.blocks b = some k → 0 < k.nshared

/-- The reference is to bytes that the block `k` has. -/
def BlockRef.Fits (r : BlockRef) (k : Block) : Prop :=
  0 < r.length ∧ r.offset + r.length ≤ k.size

/-- The user data block `k` points to bytes of `target` that are beyond its size. -/
structure Borrows (k target : Block) (start : ℕ) : Prop where
  own : target.kind = .own
  beyond : target.size ≤ start
  within : start + k.cap ≤ target.cap

/-- The read was handed what the block `k` has left, and its bytes are there once received. -/
structure Handed (memory : ℕ → ℕ → UInt8) (r : Read) (k : Block) : Prop where
  start : r.start = k.size
  room : r.room = k.cap - k.size
  received : ∀ res data, r.result = some (res, data) →
    data.length = res.toNat ∧ data.length ≤ r.room ∧
      slice memory r.block r.start data.length = data

structure Shape (s : State) : Prop where
  fresh : ∀ b k, s.blocks b = some k → b < s.fresh
  fits : ∀ b k, s.blocks b = some k → k.size ≤ k.cap
  separate : Separate s.writable
  own : ∀ p, ∀ b ∈ s.writable p, ∀ k, s.blocks b = some k → k.kind = .own
  user : ∀ u k target start, s.blocks u = some k → k.kind = .user target start →
    ¬ Within s.writable target ∧ ∀ k', s.blocks target = some k' → Borrows k k' start
  refs : ∀ x, ∀ r ∈ s.bufs x, ∀ k, s.blocks r.block = some k → r.Fits k
  reads : ∀ i r, s.reads i = some r → ∀ k, s.blocks r.block = some k → Handed s.memory r k

structure Inv (s : State) (hand : List ℕ) : Prop where
  counted : Counted s hand
  shape : Shape s

theorem inv_init : Inv init [] where
  counted :=
    { tame := rfl
      balanced := by
        have hheld : init.held = fun _ => [] := by
          funext p
          cases p <;> rfl
        rw [hheld]
        exact Balanced.empty
      positive := nofun }
  shape :=
    { fresh := nofun
      fits := nofun
      separate := by
        have hwritable : init.writable = fun _ => [] := by
          funext p
          cases p <;> rfl
        rw [hwritable]
        exact Separate.nil
      own := nofun
      user := nofun
      refs := nofun
      reads := nofun }

section Live

variable {s : State} {hand : List ℕ} {b : ℕ}

/-- A block that somebody refers to is allocated. -/
theorem Counted.live (h : Counted s hand) (hb : (∃ p, b ∈ s.held p) ∨ b ∈ hand) :
    ∃ k, s.blocks b = some k := by
  have hpos := h.balanced.pos_iff.mpr hb
  rw [State.refs] at hpos
  cases hk : s.blocks b with
  | none =>
    rw [hk] at hpos
    exact absurd hpos (Nat.lt_irrefl 0)
  | some k => exact ⟨k, rfl⟩

/-- **A block is allocated exactly as long as somebody refers to it.** -/
theorem Counted.isSome_iff (h : Counted s hand) :
    (s.blocks b).isSome ↔ (∃ p, b ∈ s.held p) ∨ b ∈ hand := by
  constructor
  · intro hsome
    obtain ⟨k, hk⟩ := Option.isSome_iff_exists.mp hsome
    refine h.balanced.pos_iff.mp ?_
    rw [State.refs, hk]
    exact h.positive b k hk
  · intro hb
    obtain ⟨k, hk⟩ := h.live hb
    rw [hk]
    rfl

theorem Inv.lt_fresh (h : Inv s hand) (hb : (∃ p, b ∈ s.held p) ∨ b ∈ hand) : b < s.fresh := by
  obtain ⟨k, hk⟩ := h.counted.live hb
  exact h.shape.fresh b k hk

theorem Inv.fresh_not_held (h : Inv s hand) (p : Holder) : s.fresh ∉ s.held p :=
  fun hb => absurd (h.lt_fresh (Or.inl ⟨p, hb⟩)) (Nat.lt_irrefl _)

theorem mem_targets {u : ℕ} (hb : b ∈ s.targets u) :
    ∃ k start, s.blocks u = some k ∧ k.kind = .user b start := by
  rw [State.targets] at hb
  cases hk : s.blocks u with
  | none =>
    rw [hk] at hb
    exact absurd hb List.not_mem_nil
  | some k =>
    rw [hk, Option.elim_some] at hb
    cases hkind : k.kind with
    | own =>
      rw [hkind] at hb
      exact absurd hb List.not_mem_nil
    | user target start =>
      rw [hkind] at hb
      rw [List.mem_singleton.mp hb]
      exact ⟨k, start, rfl, hkind⟩

/-- A block that may be written into is no target. -/
theorem Inv.not_target (h : Inv s hand) (hb : Within s.writable b) (u : ℕ) : b ∉ s.targets u := by
  intro hmem
  obtain ⟨k, start, hk, hkind⟩ := mem_targets hmem
  exact (h.shape.user u k b start hk hkind).1 hb

end Live

/-! ### Changing counts -/

/-- Blocks disappear or change their counts; nothing else changes. -/
structure Recounts (s s' : State) : Prop where
  memory : s'.memory = s.memory
  fresh : s'.fresh = s.fresh
  tls : s'.tls = s.tls
  bufs : s'.bufs = s.bufs
  reads : s'.reads = s.reads
  blocks : ∀ b k', s'.blocks b = some k' →
    ∃ k, s.blocks b = some k ∧ k'.size = k.size ∧ k'.cap = k.cap ∧ k'.kind = k.kind

namespace Recounts

variable {s s' s'' : State}

theorem refl (s : State) : Recounts s s :=
  ⟨rfl, rfl, rfl, rfl, rfl, fun _ k hk => ⟨k, hk, rfl, rfl, rfl⟩⟩

theorem trans (h : Recounts s s') (h' : Recounts s' s'') : Recounts s s'' where
  memory := h'.memory.trans h.memory
  fresh := h'.fresh.trans h.fresh
  tls := h'.tls.trans h.tls
  bufs := h'.bufs.trans h.bufs
  reads := h'.reads.trans h.reads
  blocks b k'' hk'' := by
    obtain ⟨k', hk', hsize', hcap', hkind'⟩ := h'.blocks b k'' hk''
    obtain ⟨k, hk, hsize, hcap, hkind⟩ := h.blocks b k' hk'
    exact ⟨k, hk, hsize'.trans hsize, hcap'.trans hcap, hkind'.trans hkind⟩

theorem writable (h : Recounts s s') : s'.writable = s.writable := by
  funext p
  cases p with
  | tls t => exact congrFun h.tls t
  | read i =>
    show s'.reading i = s.reading i
    rw [State.reading, h.reads]
    rfl
  | buf x => rfl
  | deleter u => rfl

/-- A change of the block `b` alone. -/
theorem setBlock {b : ℕ} {k : Block} (hk : s.blocks b = some k) {o : Option Block}
    (ho : ∀ k', o = some k' → k'.size = k.size ∧ k'.cap = k.cap ∧ k'.kind = k.kind) :
    Recounts s (s.setBlock b o) := by
  refine ⟨rfl, rfl, rfl, rfl, rfl, fun c k' hk' => ?_⟩
  rcases s.setBlock_cases hk' with ⟨rfl, hnew⟩ | ⟨-, hk'⟩
  · exact ⟨k, hk, ho k' hnew⟩
  · exact ⟨k', hk', rfl, rfl, rfl⟩

end Recounts

/-- The buffers and the reads stay as they were, and so does what their blocks are. -/
structure Keeps (s s' : State) : Prop where
  memory : s'.memory = s.memory
  bufs : s'.bufs = s.bufs
  reads : s'.reads = s.reads
  fresh : s.fresh ≤ s'.fresh
  kinds : ∀ b k', b < s.fresh → s'.blocks b = some k' →
    ∃ k, s.blocks b = some k ∧ k'.kind = k.kind

namespace Keeps

variable {s s' s'' : State}

theorem trans (h : Keeps s s') (h' : Keeps s' s'') : Keeps s s'' where
  memory := h'.memory.trans h.memory
  bufs := h'.bufs.trans h.bufs
  reads := h'.reads.trans h.reads
  fresh := h.fresh.trans h'.fresh
  kinds b k'' hb hk'' := by
    obtain ⟨k', hk', hkind'⟩ := h'.kinds b k'' (hb.trans_le h.fresh) hk''
    obtain ⟨k, hk, hkind⟩ := h.kinds b k' hb hk'
    exact ⟨k, hk, hkind'.trans hkind⟩

theorem of_recounts (h : Recounts s s') : Keeps s s' where
  memory := h.memory
  bufs := h.bufs
  reads := h.reads
  fresh := h.fresh.ge
  kinds b k' _ hk' := by
    obtain ⟨k, hk, -, -, hkind⟩ := h.blocks b k' hk'
    exact ⟨k, hk, hkind⟩

theorem refl (s : State) : Keeps s s := of_recounts (.refl s)

theorem setTls (s : State) (t : ℕ) (chain : List ℕ) : Keeps s (s.setTls t chain) :=
  ⟨rfl, rfl, rfl, le_refl _, fun _ k _ hk => ⟨k, hk, rfl⟩⟩

end Keeps

theorem Borrows.congr {k k' m m' : Block} {start : ℕ} (h : Borrows k m start)
    (hcap : k'.cap = k.cap) (hsize : m'.size = m.size) (hroom : m'.cap = m.cap)
    (hkind : m'.kind = m.kind) : Borrows k' m' start :=
  ⟨hkind.trans h.own, hsize.le.trans h.beyond, by rw [hcap, hroom]; exact h.within⟩

theorem Handed.congr {memory : ℕ → ℕ → UInt8} {r : Read} {k k' : Block} (h : Handed memory r k)
    (hsize : k'.size = k.size) (hcap : k'.cap = k.cap) : Handed memory r k' :=
  ⟨h.start.trans hsize.symm, by rw [hsize, hcap]; exact h.room, h.received⟩

theorem Shape.recounts {s s' : State} (h : Shape s) (hr : Recounts s s') : Shape s' where
  fresh b k' hk' := by
    obtain ⟨k, hk, -⟩ := hr.blocks b k' hk'
    rw [hr.fresh]
    exact h.fresh b k hk
  fits b k' hk' := by
    obtain ⟨k, hk, hsize, hcap, -⟩ := hr.blocks b k' hk'
    rw [hsize, hcap]
    exact h.fits b k hk
  separate := by
    rw [hr.writable]
    exact h.separate
  own p b hb k' hk' := by
    rw [hr.writable] at hb
    obtain ⟨k, hk, -, -, hkind⟩ := hr.blocks b k' hk'
    exact hkind.trans (h.own p b hb k hk)
  user u k' target start hk' huser := by
    obtain ⟨k, hk, -, hcap, hkind⟩ := hr.blocks u k' hk'
    obtain ⟨hout, hborrows⟩ := h.user u k target start hk (hkind.symm.trans huser)
    rw [hr.writable]
    refine ⟨hout, fun m' hm' => ?_⟩
    obtain ⟨m, hm, hsize, hroom, hmkind⟩ := hr.blocks target m' hm'
    exact (hborrows m hm).congr hcap hsize hroom hmkind
  refs x r hx k' hk' := by
    rw [hr.bufs] at hx
    obtain ⟨k, hk, hsize, -⟩ := hr.blocks r.block k' hk'
    have hfits := h.refs x r hx k hk
    exact ⟨hfits.1, hsize ▸ hfits.2⟩
  reads i r hi k' hk' := by
    rw [hr.reads] at hi
    obtain ⟨k, hk, hsize, hcap, -⟩ := hr.blocks r.block k' hk'
    rw [hr.memory]
    exact (h.reads i r hi k hk).congr hsize hcap

/-! ### Counting -/

section Counting

variable {s : State} {hand : List ℕ} {b : ℕ} {k : Block}

theorem held_setBlock_of_ne {o : Option Block} {p : Holder} (hp : p ≠ .deleter b) :
    (s.setBlock b o).held p = s.held p := by
  cases p with
  | tls t => rfl
  | read i => rfl
  | buf x => rfl
  | deleter u =>
    have hu : u ≠ b := fun h => hp (congrArg _ h)
    show (s.setBlock b o).targets u = s.targets u
    rw [State.targets, State.setBlock_of_ne s hu]
    rfl

theorem held_setBlock_deleter {o : Option Block} :
    (s.setBlock b o).held (.deleter b) = o.elim [] fun k => k.kind.target.toList := by
  show (s.setBlock b o).targets b = _
  rw [State.targets, State.setBlock_self]

theorem refs_setBlock {o : Option Block} (c : ℕ) :
    (s.setBlock b o).refs c = if c = b then o.elim 0 Block.nshared else s.refs c := by
  split
  · rename_i hc
    rw [hc, State.refs, State.setBlock_self]
  · rename_i hc
    rw [State.refs, State.setBlock_of_ne s hc]
    rfl

/-- The block `b` is replaced, or allocated, or freed.  What its deleter held goes to the hand,
and what the new one holds comes from there. -/
theorem Counted.setBlock (h : Counted s hand) {o : Option Block} {hand' : List ℕ}
    (hpos : ∀ k, o = some k → 0 < k.nshared)
    (hcount : ∀ a, (if a = b then o.elim 0 Block.nshared else s.refs a) +
        (s.targets b ++ hand).count a =
      s.refs a + ((o.elim [] fun k => k.kind.target.toList) ++ hand').count a) :
    Counted (s.setBlock b o) hand' where
  tame := h.tame
  balanced := by
    have hout : Balanced s.refs (Function.update s.held (.deleter b) []) (s.targets b ++ hand) := by
      refine h.balanced.pass (i := .deleter b) ?_ fun p hp => Function.update_of_ne hp _ _
      rw [Function.update_self]
      exact List.Perm.refl _
    have hrefs : Balanced (s.setBlock b o).refs (Function.update s.held (.deleter b) [])
        ((o.elim [] fun k => k.kind.target.toList) ++ hand') := by
      refine hout.recount fun a => ?_
      rw [refs_setBlock a]
      exact hcount a
    refine hrefs.pass (i := .deleter b) ?_ fun p hp => ?_
    · rw [held_setBlock_deleter, Function.update_self]
      exact List.Perm.refl _
    · rw [held_setBlock_of_ne hp, Function.update_of_ne hp]
  positive c k hk := by
    rcases s.setBlock_cases hk with ⟨-, hk⟩ | ⟨-, hk⟩
    · exact hpos k hk
    · exact h.positive c k hk

theorem targets_eq (hk : s.blocks b = some k) : s.targets b = k.kind.target.toList := by
  rw [State.targets, hk]
  rfl

theorem refs_eq (hk : s.blocks b = some k) : s.refs b = k.nshared := by
  rw [State.refs, hk]
  rfl

/-- The count of the block `b` alone changes. -/
theorem Counted.recount (h : Counted s hand) (hk : s.blocks b = some k) {n : ℕ} {hand' : List ℕ}
    (hn : 0 < n) (hsame : ∀ a ≠ b, hand.count a = hand'.count a)
    (hb : n + hand.count b = k.nshared + hand'.count b) :
    Counted (s.setBlock b (some { k with nshared := n })) hand' := by
  refine h.setBlock (fun k' hk' => by obtain rfl := Option.some.inj hk'; exact hn) fun a => ?_
  show (if a = b then n else s.refs a) + _ = s.refs a + (k.kind.target.toList ++ hand').count a
  rw [targets_eq hk, List.count_append, List.count_append]
  by_cases ha : a = b
  · subst ha
    rw [if_pos rfl, refs_eq hk]
    omega
  · rw [if_neg ha, hsame a ha]

theorem incRef_eq (hk : s.blocks b = some k) :
    incRef s b = s.setBlock b (some { k with nshared := k.nshared + 1 }) := by
  rw [incRef, hk]

theorem Counted.incRef (h : Counted s hand) (hk : s.blocks b = some k) :
    Counted (incRef s b) (b :: hand) := by
  rw [incRef_eq hk]
  refine h.recount hk (Nat.succ_pos _) (fun a ha => ?_) ?_
  · rw [List.count_cons_of_ne (Ne.symm ha)]
  · rw [List.count_cons_self]
    omega

theorem incRef_recounts (hk : s.blocks b = some k) : Recounts s (incRef s b) := by
  rw [incRef_eq hk]
  refine Recounts.setBlock hk fun k' hk' => ?_
  obtain rfl := Option.some.inj hk'
  exact ⟨rfl, rfl, rfl⟩

theorem decRefOnce_recounts (hk : s.blocks b = some k) : Recounts s (decRefOnce s b).1 := by
  rw [decRefOnce, hk]
  dsimp only
  split
  · exact Recounts.setBlock hk nofun
  · refine Recounts.setBlock hk fun k' hk' => ?_
    obtain rfl := Option.some.inj hk'
    exact ⟨rfl, rfl, rfl⟩

/-- The last reference to a block is given back together with what its deleter holds. -/
theorem Counted.decRefOnce (h : Counted s (b :: hand)) :
    Counted (decRefOnce s b).1 ((decRefOnce s b).2.toList ++ hand) := by
  obtain ⟨k, hk⟩ := h.live (Or.inr List.mem_cons_self)
  have hpos := h.positive b k hk
  rw [IOBuf.decRefOnce, hk]
  dsimp only
  split
  · rename_i hlast
    refine h.setBlock nofun fun a => ?_
    show (if a = b then 0 else s.refs a) + _ = s.refs a + (k.kind.target.toList ++ hand).count a
    rw [targets_eq hk, List.count_append, List.count_append]
    by_cases ha : a = b
    · subst ha
      rw [if_pos rfl, refs_eq hk, List.count_cons_self]
      omega
    · rw [if_neg ha, List.count_cons_of_ne (Ne.symm ha)]
  · rename_i hmore
    refine h.recount hk (by omega) (fun a ha => ?_) ?_
    · exact List.count_cons_of_ne (Ne.symm ha)
    · rw [List.count_cons_self]
      show k.nshared - 1 + _ = k.nshared + List.count b hand
      omega

/-- A block with memory of its own has no deleter. -/
theorem decRefOnce_own (hk : s.blocks b = some k) (hown : k.kind = .own) :
    (decRefOnce s b).2 = none := by
  rw [decRefOnce, hk]
  dsimp only
  split
  · rw [hown]
    rfl
  · rfl

/-- **Giving a reference back.** -/
theorem Inv.decRef (h : Inv s (b :: hand)) :
    Inv (decRef s b) hand ∧ Recounts s (decRef s b) := by
  obtain ⟨k, hk⟩ := h.counted.live (Or.inr List.mem_cons_self)
  have honce := h.counted.decRefOnce
  have hrecounts := decRefOnce_recounts hk
  rw [IOBuf.decRef]
  cases hdec : decRefOnce s b with
  | mk s' o =>
    rw [hdec] at honce hrecounts
    cases o with
    | none => exact ⟨⟨honce, h.shape.recounts hrecounts⟩, hrecounts⟩
    | some target =>
      -- the deleter gives back the target, which has no deleter
      dsimp only at honce hrecounts ⊢
      obtain ⟨k', hk'⟩ := honce.live (Or.inr (List.mem_append_left _ List.mem_cons_self))
      have hown : k'.kind = .own := by
        obtain ⟨m, hm, -, -, hkind⟩ := hrecounts.blocks target k' hk'
        rw [hkind]
        rw [decRefOnce, hk] at hdec
        dsimp only at hdec
        split at hdec
        · have htarget := (Prod.mk.inj hdec).2
          cases hkk : k.kind with
          | own =>
            rw [hkk] at htarget
            cases htarget
          | user t start =>
            rw [hkk] at htarget
            obtain rfl := Option.some.inj htarget
            exact ((h.shape.user b k t start hk hkk).2 m hm).own
        · cases (Prod.mk.inj hdec).2
      have htwice := honce.decRefOnce
      rw [decRefOnce_own hk' hown] at htwice
      have hboth := hrecounts.trans (decRefOnce_recounts hk')
      exact ⟨⟨htwice, h.shape.recounts hboth⟩, hboth⟩

theorem Inv.decRefAll {bs : List ℕ} (h : Inv s (bs ++ hand)) :
    Inv (decRefAll s bs) hand ∧ Recounts s (decRefAll s bs) := by
  induction bs generalizing s with
  | nil => exact ⟨h, Recounts.refl s⟩
  | cons b bs ih =>
    obtain ⟨hone, hrecounts⟩ := Inv.decRef h
    obtain ⟨hall, hrest⟩ := ih hone
    exact ⟨hall, hrecounts.trans hrest⟩

theorem Inv.incRef (h : Inv s hand) (hk : s.blocks b = some k) : Inv (incRef s b) (b :: hand) :=
  ⟨h.counted.incRef hk, h.shape.recounts (incRef_recounts hk)⟩

end Counting

/-! ### Allocating -/

/-- The block `k` gets the next number. -/
def allocate (k : Block) (s : State) : State :=
  { s.setBlock s.fresh (some k) with fresh := s.fresh + 1 }

section Moves

variable {s : State} {hand hand' : List ℕ} {b : ℕ}

/-- **Allocating a block.**  The new reference is in the hand; what the deleter of the block is to
give back comes from there. -/
theorem Inv.allocate {k : Block} (h : Inv s (k.kind.target.toList ++ hand)) (hone : k.nshared = 1)
    (hfits : k.size ≤ k.cap)
    (huser : ∀ target start, k.kind = .user target start →
      ¬ Within s.writable target ∧ ∀ k', s.blocks target = some k' → Borrows k k' start) :
    Inv (allocate k s) (s.fresh :: hand) := by
  have hnone : s.blocks s.fresh = none := by
    cases hk : s.blocks s.fresh with
    | none => rfl
    | some m => exact absurd (h.shape.fresh _ m hk) (Nat.lt_irrefl _)
  have hrefs : s.refs s.fresh = 0 := by
    rw [State.refs, hnone]
    rfl
  have htargets : s.targets s.fresh = [] := by
    rw [State.targets, hnone]
    rfl
  have hcounted : Counted (s.setBlock s.fresh (some k)) (s.fresh :: hand) := by
    refine h.counted.setBlock (fun k' hk' => ?_) fun a => ?_
    · obtain rfl := Option.some.inj hk'
      omega
    · show (if a = s.fresh then k.nshared else s.refs a) + _ =
        s.refs a + (k.kind.target.toList ++ s.fresh :: hand).count a
      rw [htargets, List.nil_append, List.count_append, List.count_append]
      by_cases ha : a = s.fresh
      · subst ha
        rw [if_pos rfl, hrefs, hone, List.count_cons_self]
        omega
      · rw [if_neg ha, List.count_cons_of_ne (Ne.symm ha)]
  -- nobody refers to the new block yet
  have hold : ∀ {c k'}, (s.setBlock s.fresh (some k)).blocks c = some k' → c ≠ s.fresh →
      s.blocks c = some k' := by
    intro c k' hk' hc
    exact ((s.setBlock_cases hk').resolve_left fun hnew => hc hnew.1).2
  have hheld : ∀ {c} p, c ∈ s.held p → c ≠ s.fresh := by
    rintro c p hc rfl
    exact h.fresh_not_held p hc
  have hwritable : ∀ {c} p, c ∈ s.writable p → c ≠ s.fresh :=
    fun p hc => hheld p (s.writable_subset p hc)
  refine ⟨⟨hcounted.tame, hcounted.balanced, hcounted.positive⟩, ?_⟩
  refine ⟨fun c k' hk' => ?_, fun c k' hk' => ?_, h.shape.separate, fun p c hc k' hk' => ?_,
    fun u k' target start hk' hkind => ?_, fun x r hr k' hk' => ?_,
    fun i r hi k' hk' => ?_⟩
  · rcases s.setBlock_cases hk' with ⟨rfl, -⟩ | ⟨-, hk'⟩
    · exact Nat.lt_succ_self _
    · exact Nat.lt_succ_of_lt (h.shape.fresh c k' hk')
  · rcases s.setBlock_cases hk' with ⟨-, hk'⟩ | ⟨-, hk'⟩
    · obtain rfl := Option.some.inj hk'
      exact hfits
    · exact h.shape.fits c k' hk'
  · exact h.shape.own p c hc k' (hold hk' (hwritable p hc))
  · rcases s.setBlock_cases hk' with ⟨rfl, hnew⟩ | ⟨-, hk'⟩
    · obtain rfl := Option.some.inj hnew
      obtain ⟨hout, hborrows⟩ := huser target start hkind
      refine ⟨hout, fun m hm => hborrows m (hold hm ?_)⟩
      rintro rfl
      have hin : s.fresh ∈ k.kind.target.toList ++ hand := by
        rw [hkind]
        exact List.mem_cons_self
      exact absurd (h.lt_fresh (Or.inr hin)) (Nat.lt_irrefl _)
    · obtain ⟨hout, hborrows⟩ := h.shape.user u k' target start hk' hkind
      refine ⟨hout, fun m hm => hborrows m (hold hm (hheld (.deleter u) ?_))⟩
      show target ∈ s.targets u
      rw [targets_eq hk', hkind]
      exact List.mem_cons_self
  · exact h.shape.refs x r hr k' (hold hk' (hheld (.buf x) (List.mem_map_of_mem hr)))
  · exact h.shape.reads i r hi k' (hold hk' (hwritable (.read i) (mem_writable_read hi)))

/-! ### Passing references on -/

/-- Chains and reads change; what may be written into gets less. -/
theorem Shape.restrict {s' : State} (h : Shape s) (hblocks : s'.blocks = s.blocks)
    (hmemory : s'.memory = s.memory) (hfresh : s'.fresh = s.fresh) (hbufs : s'.bufs = s.bufs)
    (hsub : ∀ p, (s'.writable p).Sublist (s.writable p))
    (hreads : ∀ i r, s'.reads i = some r → s.reads i = some r) : Shape s' where
  fresh b k hk := by
    rw [hfresh]
    exact h.fresh b k (hblocks ▸ hk)
  fits b k hk := h.fits b k (hblocks ▸ hk)
  separate := h.separate.mono hsub
  own p b hb k hk := h.own p b ((hsub p).subset hb) k (hblocks ▸ hk)
  user u k target start hk hkind := by
    obtain ⟨hout, hborrows⟩ := h.user u k target start (hblocks ▸ hk) hkind
    refine ⟨?_, fun k' hk' => hborrows k' (hblocks ▸ hk')⟩
    rintro ⟨p, hp⟩
    exact hout ⟨p, (hsub p).subset hp⟩
  refs x r hr k hk := h.refs x r (hbufs ▸ hr) k (hblocks ▸ hk)
  reads i r hi k hk := by
    rw [hmemory]
    exact h.reads i r (hreads i r hi) k (hblocks ▸ hk)

theorem held_setTls_of_ne {t : ℕ} {chain : List ℕ} {p : Holder} (hp : p ≠ .tls t) :
    (s.setTls t chain).held p = s.held p := by
  cases p with
  | tls t' => exact Function.update_of_ne (fun ht => hp (congrArg _ ht)) _ _
  | _ => rfl

theorem held_setRead_of_ne {i : ℕ} {o : Option Read} {p : Holder} (hp : p ≠ .read i) :
    (s.setRead i o).held p = s.held p := by
  cases p with
  | read j =>
    show (s.setRead i o).reading j = s.reading j
    have hj : j ≠ i := fun hj => hp (congrArg _ hj)
    rw [State.reading, State.setRead_of_ne s hj]
    rfl
  | _ => rfl

theorem held_setBuf_of_ne {x : ℕ} {refs : List BlockRef} {p : Holder} (hp : p ≠ .buf x) :
    (s.setBuf x refs).held p = s.held p := by
  cases p with
  | buf y =>
    show ((s.setBuf x refs).bufs y).map BlockRef.block = _
    have hy : y ≠ x := fun hy => hp (congrArg _ hy)
    rw [State.setBuf_of_ne s hy]
    rfl
  | _ => rfl

/-- What may be written into changes with the holder alone. -/
theorem writable_of_held {s' : State} {p : Holder} (hp : s'.held p = s.held p) :
    s'.writable p = s.writable p := by
  cases p with
  | tls t => exact hp
  | read i => exact hp
  | buf x => rfl
  | deleter u => rfl

/-- The counts when one holder alone changes. -/
theorem Counted.pass {s' : State} (h : Counted s hand) {p : Holder}
    (hblocks : s'.blocks = s.blocks) (hbad : s'.bad = s.bad)
    (hperm : (s'.held p ++ hand').Perm (s.held p ++ hand))
    (hrest : ∀ q, q ≠ p → s'.held q = s.held q) : Counted s' hand' where
  tame := hbad.trans h.tame
  balanced := by
    have hrefs : s'.refs = s.refs := by
      funext c
      rw [State.refs, hblocks]
      rfl
    rw [hrefs]
    exact h.balanced.pass hperm hrest
  positive b k hk := h.positive b k (hblocks ▸ hk)

/-- References leave the chain of a thread. -/
theorem Inv.dropTls (h : Inv s hand) {t : ℕ} {bs rest : List ℕ} (hchain : s.tls t = bs ++ rest) :
    Inv (s.setTls t rest) (bs ++ hand) := by
  have hsub : ∀ p, ((s.setTls t rest).writable p).Sublist (s.writable p) := by
    intro p
    by_cases hp : p = .tls t
    · subst hp
      show ((s.setTls t rest).tls t).Sublist (s.tls t)
      rw [State.setTls_self, hchain]
      exact List.sublist_append_right bs rest
    · rw [writable_of_held (held_setTls_of_ne hp)]
  refine ⟨h.counted.pass rfl rfl ?_ fun q hq => held_setTls_of_ne hq,
    h.shape.restrict rfl rfl rfl rfl hsub fun _ _ hr => hr⟩
  show ((s.setTls t rest).tls t ++ (bs ++ hand)).Perm (s.tls t ++ hand)
  rw [State.setTls_self, hchain, ← List.append_assoc]
  exact List.perm_append_comm.append_right hand

/-- A read gives its block to the hand. -/
theorem Inv.dropRead (h : Inv s hand) {i : ℕ} {r : Read} (hi : s.reads i = some r) :
    Inv (s.setRead i none) (r.block :: hand) := by
  have hnone : (s.setRead i none).reading i = [] := reading_eq_nil (State.setRead_self ..)
  have hsub : ∀ p, ((s.setRead i none).writable p).Sublist (s.writable p) := by
    intro p
    by_cases hp : p = .read i
    · subst hp
      show ((s.setRead i none).reading i).Sublist (s.reading i)
      rw [hnone]
      exact List.nil_sublist _
    · rw [writable_of_held (held_setRead_of_ne hp)]
  have hreads : ∀ j w, (s.setRead i none).reads j = some w → s.reads j = some w := by
    intro j w hw
    exact ((s.setRead_cases hw).resolve_left fun hnew => nomatch hnew.2).2
  refine ⟨h.counted.pass rfl rfl ?_ fun q hq => held_setRead_of_ne hq,
    h.shape.restrict rfl rfl rfl rfl hsub hreads⟩
  show ((s.setRead i none).reading i ++ r.block :: hand).Perm (s.reading i ++ hand)
  rw [hnone, reading_eq hi]
  exact List.Perm.refl _

/-- The block may be given to somebody who writes into it. -/
structure Free (s : State) (b : ℕ) : Prop where
  unwritten : ¬ Within s.writable b
  own : ∀ k, s.blocks b = some k → k.kind = .own
  untargeted : ∀ u, b ∉ s.targets u

/-- **Adopting a block** that nobody else may write into. -/
theorem Inv.adopt {s' : State} (h : Inv s (b :: hand)) (hfree : Free s b) {p : Holder}
    (hblocks : s'.blocks = s.blocks) (hmemory : s'.memory = s.memory)
    (hfresh : s'.fresh = s.fresh) (hbufs : s'.bufs = s.bufs) (hbad : s'.bad = s.bad)
    (hp : s'.held p = b :: s.held p) (hw : s'.writable p = b :: s.writable p)
    (hrest : ∀ q, q ≠ p → s'.held q = s.held q)
    (hreads : ∀ i r, s'.reads i = some r →
      s.reads i = some r ∨ ∀ k, s.blocks r.block = some k → Handed s.memory r k) :
    Inv s' hand := by
  have hwithin : ∀ {c}, Within s'.writable c ↔ c = b ∨ Within s.writable c := by
    intro c
    exact within_put (hw ▸ List.Perm.refl _) fun q hq => writable_of_held (hrest q hq)
  refine ⟨h.counted.pass hblocks hbad ?_ hrest, ?_⟩
  · rw [hp]
    exact List.perm_middle.symm
  refine ⟨fun c k hk => ?_, fun c k hk => h.shape.fits c k (hblocks ▸ hk), ?_,
    fun q c hc k hk => ?_, fun u k target start hk hkind => ?_,
    fun x r hr k hk => h.shape.refs x r (hbufs ▸ hr) k (hblocks ▸ hk),
    fun i r hi k hk => ?_⟩
  · rw [hfresh]
    exact h.shape.fresh c k (hblocks ▸ hk)
  · exact h.shape.separate.put hfree.unwritten (hw ▸ List.Perm.refl _)
      fun q hq => writable_of_held (hrest q hq)
  · rw [hblocks] at hk
    rcases hwithin.mp ⟨q, hc⟩ with rfl | ⟨q', hc'⟩
    · exact hfree.own k hk
    · exact h.shape.own q' c hc' k hk
  · rw [hblocks] at hk
    obtain ⟨hout, hborrows⟩ := h.shape.user u k target start hk hkind
    refine ⟨fun hin => ?_, fun k' hk' => hborrows k' (hblocks ▸ hk')⟩
    rcases hwithin.mp hin with rfl | hin
    · refine hfree.untargeted u ?_
      rw [targets_eq hk, hkind]
      exact List.mem_cons_self
    · exact hout hin
  · rw [hblocks] at hk
    rw [hmemory]
    rcases hreads i r hi with hold | hnew
    · exact h.shape.reads i r hold k hk
    · exact hnew k hk

/-- A block that leaves its writer is free. -/
theorem Inv.free_of_unwritten {s' : State} (h : Inv s hand) {p : Holder} (hb : b ∈ s.writable p)
    (hblocks : s'.blocks = s.blocks)
    (hrest : ∀ q, q ≠ p → s'.writable q = s.writable q) (hout : b ∉ s'.writable p) :
    Free s' b where
  unwritten := by
    rintro ⟨q, hq⟩
    by_cases hqp : q = p
    · exact hout (hqp ▸ hq)
    · rw [hrest q hqp] at hq
      exact hqp (h.shape.separate.eq_of_mem hq hb)
  own k hk := h.shape.own p b hb k (hblocks ▸ hk)
  untargeted u := by
    rw [State.targets, hblocks]
    exact h.not_target ⟨p, hb⟩ u

/-- So is a new block. -/
theorem Inv.free_allocate {k : Block} (h : Inv s hand) (hown : k.kind = .own) :
    Free (IOBuf.allocate k s) s.fresh where
  unwritten := by
    rintro ⟨q, hq⟩
    exact h.fresh_not_held q (s.writable_subset q hq)
  own k' hk' := by
    rcases s.setBlock_cases hk' with ⟨-, hk'⟩ | ⟨hne, -⟩
    · obtain rfl := Option.some.inj hk'
      exact hown
    · exact absurd rfl hne
  untargeted u hu := by
    by_cases hus : u = s.fresh
    · subst hus
      have htargets : (IOBuf.allocate k s).targets s.fresh = k.kind.target.toList :=
        targets_eq (State.setBlock_self s s.fresh (some k))
      rw [htargets, hown] at hu
      exact absurd hu List.not_mem_nil
    · have htargets : (IOBuf.allocate k s).targets u = s.targets u :=
        held_setBlock_of_ne (p := .deleter u) fun heq => hus (Holder.deleter.inj heq)
      rw [htargets] at hu
      exact h.fresh_not_held (.deleter u) hu

theorem Keeps.allocate (k : Block) : Keeps s (IOBuf.allocate k s) := by
  refine ⟨rfl, rfl, rfl, Nat.le_succ _, fun c k' hc hk' => ⟨k', ?_, rfl⟩⟩
  have hne : c ≠ s.fresh := Nat.ne_of_lt hc
  exact (State.setBlock_of_ne s hne (some k)).symm.trans hk'

/-! ### The chains of the threads -/

/-- Full blocks are given back, until the head of the chain has room. -/
theorem Inv.dropFull (t : ℕ) :
    ∀ (chain : List ℕ) {s : State}, s.tls t = chain → Inv s hand →
      Inv (dropFull t chain s) hand ∧ Keeps s (dropFull t chain s) ∧
        ∀ b rest, (dropFull t chain s).tls t = b :: rest → (dropFull t chain s).full b = false := by
  intro chain
  induction chain with
  | nil =>
    intro s hchain h
    refine ⟨h, Keeps.refl s, fun b rest htls => ?_⟩
    have hnil : (IOBuf.dropFull t [] s).tls t = [] := hchain
    rw [hnil] at htls
    cases htls
  | cons b rest ih =>
    intro s hchain h
    rw [IOBuf.dropFull]
    split
    · have hdrop : Inv (s.setTls t rest) (b :: hand) :=
        h.dropTls (show s.tls t = [b] ++ rest from hchain)
      obtain ⟨hinv, hrecounts⟩ := hdrop.decRef
      have hrest : (IOBuf.decRef (s.setTls t rest) b).tls t = rest := by
        rw [hrecounts.tls]
        exact State.setTls_self s t rest
      obtain ⟨hinv', hkeeps, hroom⟩ := ih hrest hinv
      exact ⟨hinv', ((Keeps.setTls s t rest).trans (.of_recounts hrecounts)).trans hkeeps, hroom⟩
    · rename_i hroom
      refine ⟨h, Keeps.refl s, fun c rest' htls => ?_⟩
      rw [hchain] at htls
      rw [← (List.cons.inj htls).1]
      exact Bool.eq_false_of_not_eq_true hroom

variable {cap t : ℕ}

/-- **`acquire_tls_block`** leaves a block in the hand that nobody else may write into. -/
theorem Inv.acquireTlsBlock (h : Inv s hand) (cap t : ℕ) :
    Inv (acquireTlsBlock cap t s).1 ((acquireTlsBlock cap t s).2 :: hand) ∧
      Keeps s (acquireTlsBlock cap t s).1 ∧
      Free (acquireTlsBlock cap t s).1 (acquireTlsBlock cap t s).2 := by
  obtain ⟨hinv, hkeeps, -⟩ := Inv.dropFull t (s.tls t) rfl h
  rw [IOBuf.acquireTlsBlock]
  generalize IOBuf.dropFull t (s.tls t) s = m at hinv hkeeps
  split
  · have hnew : Inv (IOBuf.allocate ⟨1, 0, cap, .own⟩ m) (m.fresh :: hand) :=
      Inv.allocate hinv rfl (Nat.zero_le cap) nofun
    exact ⟨hnew, hkeeps.trans (Keeps.allocate _), hinv.free_allocate rfl⟩
  · rename_i b rest hchain
    have hb : b ∈ m.writable (.tls t) := by
      show b ∈ m.tls t
      rw [hchain]
      exact List.mem_cons_self
    refine ⟨hinv.dropTls (show m.tls t = [b] ++ rest from hchain),
      hkeeps.trans (Keeps.setTls m t rest),
      hinv.free_of_unwritten hb rfl (fun q hq => writable_of_held (held_setTls_of_ne hq)) ?_⟩
    show b ∉ (m.setTls t rest).tls t
    have hnodup : (m.tls t).Nodup := hinv.shape.separate.nodup (.tls t)
    rw [hchain] at hnodup
    rw [State.setTls_self]
    exact (List.nodup_cons.mp hnodup).1

/-- **`share_tls_block`** returns a block with room, which is in the chain of the thread. -/
theorem Inv.shareTlsBlock (h : Inv s hand) (hcap : 0 < cap) :
    Inv (shareTlsBlock cap t s).1 hand ∧ Keeps s (shareTlsBlock cap t s).1 ∧
      (shareTlsBlock cap t s).2 ∈ (shareTlsBlock cap t s).1.tls t ∧
      ∃ k, (shareTlsBlock cap t s).1.blocks (shareTlsBlock cap t s).2 = some k ∧
        k.size < k.cap := by
  obtain ⟨hinv, hkeeps, hroom⟩ := Inv.dropFull t (s.tls t) rfl h
  rw [IOBuf.shareTlsBlock]
  generalize IOBuf.dropFull t (s.tls t) s = m at hinv hkeeps hroom
  split
  · rename_i hchain
    have hnew : Inv (IOBuf.allocate ⟨1, 0, cap, .own⟩ m) (m.fresh :: hand) :=
      Inv.allocate hinv rfl (Nat.zero_le cap) nofun
    have htls : ((IOBuf.allocate ⟨1, 0, cap, .own⟩ m).setTls t [m.fresh]).tls t =
        m.fresh :: (IOBuf.allocate ⟨1, 0, cap, .own⟩ m).tls t := by
      rw [State.setTls_self]
      exact congrArg (m.fresh :: ·) hchain.symm
    refine ⟨?_, (hkeeps.trans (Keeps.allocate _)).trans (Keeps.setTls _ t [m.fresh]), ?_,
      ⟨1, 0, cap, .own⟩, State.setBlock_self .., hcap⟩
    · exact hnew.adopt (hinv.free_allocate rfl) (p := .tls t) rfl rfl rfl rfl rfl htls htls
        (fun q hq => held_setTls_of_ne hq) (fun _ _ hr => Or.inl hr)
    · show m.fresh ∈ ((createBlock cap m).setTls t [m.fresh]).tls t
      rw [State.setTls_self]
      exact List.mem_singleton_self _
  · rename_i b rest hchain
    have hmem : b ∈ m.tls t := by
      rw [hchain]
      exact List.mem_cons_self
    obtain ⟨k, hk⟩ := hinv.counted.live (Or.inl ⟨.tls t, hmem⟩)
    refine ⟨hinv, hkeeps, hmem, k, hk, ?_⟩
    have hfull := hroom b rest hchain
    rw [State.full, hk] at hfull
    exact not_le.mp (of_decide_eq_false hfull)

/-! ### Buffers -/

/-- New references of the buffer `x`, to blocks from the old ones and the hand. -/
theorem Inv.setBuf (h : Inv s hand) {x : ℕ} {refs : List BlockRef}
    (hperm : (refs.map BlockRef.block ++ hand').Perm ((s.bufs x).map BlockRef.block ++ hand))
    (hrefs : ∀ r ∈ refs, ∀ k, s.blocks r.block = some k → r.Fits k) :
    Inv (s.setBuf x refs) hand' := by
  refine ⟨h.counted.pass (p := .buf x) rfl rfl ?_ fun q hq => held_setBuf_of_ne hq, ?_⟩
  · show (((s.setBuf x refs).bufs x).map BlockRef.block ++ hand').Perm _
    rw [State.setBuf_self]
    exact hperm
  · refine ⟨h.shape.fresh, h.shape.fits, h.shape.separate, h.shape.own, h.shape.user,
      fun y r hr k hk => ?_, h.shape.reads⟩
    by_cases hy : y = x
    · subst hy
      rw [State.setBuf_self] at hr
      exact hrefs r hr k hk
    · rw [State.setBuf_of_ne s hy] at hr
      exact h.shape.refs y r hr k hk

/-- The reference goes on where the last one of the buffer ends. -/
def Continues (s : State) (x : ℕ) (r back : BlockRef) : Prop :=
  (s.bufs x).getLast? = some back ∧ back.block = r.block ∧ back.offset + back.length = r.offset

/-- What `_push_back_ref` does to the references, and what is left in the hand. -/
theorem pushBackRef_cases (move : Bool) (x : ℕ) (r : BlockRef) (s : State) :
    (∃ back, Continues s x r back ∧
      pushBackRef move x r s =
        (if move then (decRef · r.block) else id) (s.setBuf x
          ((s.bufs x).dropLast ++ [{ back with length := back.length + r.length }]))) ∨
    pushBackRef move x r s =
      (if move then id else (incRef · r.block)) (s.setBuf x (s.bufs x ++ [r])) := by
  rw [pushBackRef]
  split
  · rename_i back hback
    split
    · rename_i hends
      refine Or.inl ⟨back, ⟨hback, hends⟩, ?_⟩
      cases move <;> rfl
    · refine Or.inr ?_
      cases move <;> rfl
  · refine Or.inr ?_
    cases move <;> rfl

theorem incRef_setBuf (x : ℕ) (refs : List BlockRef) :
    incRef (s.setBuf x refs) b = (incRef s b).setBuf x refs := by
  have hsame : (s.setBuf x refs).blocks b = s.blocks b := rfl
  cases hk : s.blocks b with
  | none => rw [incRef, incRef, hsame, hk]; rfl
  | some k => rw [incRef_eq hk, incRef_eq (hsame.trans hk)]; rfl

theorem map_block_dropLast_append {refs : List BlockRef} {back back' : BlockRef}
    (hback : refs.getLast? = some back) (hblock : back'.block = back.block) :
    (refs.dropLast ++ [back']).map BlockRef.block = refs.map BlockRef.block := by
  obtain ⟨ys, rfl⟩ := List.getLast?_eq_some_iff.mp hback
  rw [List.dropLast_concat, List.map_append, List.map_append, List.map_singleton,
    List.map_singleton, hblock]

/-- The last reference and the one that goes on from it are merged. -/
theorem Inv.merge (h : Inv s hand) {x : ℕ} {r back : BlockRef} (hends : Continues s x r back)
    (hr : ∀ k, s.blocks r.block = some k → r.Fits k) :
    Inv (s.setBuf x ((s.bufs x).dropLast ++ [{ back with length := back.length + r.length }]))
      hand := by
  obtain ⟨hback, hblock, hends⟩ := hends
  refine h.setBuf ?_ fun r' hr' k hk => ?_
  · have hblocks : ({ back with length := back.length + r.length } : BlockRef).block = back.block :=
      rfl
    rw [map_block_dropLast_append hback hblocks]
  · rcases List.mem_append.mp hr' with hr' | hr'
    · exact h.shape.refs x r' (List.dropLast_subset _ hr') k hk
    · rw [List.mem_singleton.mp hr'] at hk ⊢
      have hfits := hr k (hblock ▸ hk)
      refine ⟨Nat.add_pos_right _ hfits.1, ?_⟩
      show back.offset + (back.length + r.length) ≤ k.size
      have hend := hfits.2
      omega

theorem Inv.concat (h : Inv s (b :: hand)) {x : ℕ} {r : BlockRef} (hb : r.block = b)
    (hr : ∀ k, s.blocks r.block = some k → r.Fits k) :
    Inv (s.setBuf x (s.bufs x ++ [r])) hand := by
  refine h.setBuf ?_ fun r' hr' k hk => ?_
  · rw [List.map_append, List.map_singleton, hb, List.append_assoc]
    exact List.Perm.refl _
  · rcases List.mem_append.mp hr' with hr' | hr'
    · exact h.shape.refs x r' hr' k hk
    · rw [List.mem_singleton.mp hr'] at hk ⊢
      exact hr k hk

theorem BlockRef.Fits.of_live {r : BlockRef} {k : Block} (hr : r.Fits k)
    (hk : s.blocks r.block = some k) : ∀ k', s.blocks r.block = some k' → r.Fits k' := by
  intro k' hk'
  obtain rfl := Option.some.inj (hk.symm.trans hk')
  exact hr

/-- **`_push_back_ref`** takes a reference of its own. -/
theorem Inv.pushBackRef (h : Inv s hand) {x : ℕ} {r : BlockRef} {k : Block}
    (hk : s.blocks r.block = some k) (hr : r.Fits k) : Inv (pushBackRef false x r s) hand := by
  have hfits := hr.of_live hk
  rcases pushBackRef_cases false x r s with ⟨back, hends, heq⟩ | heq
  · rw [heq]
    exact h.merge hends hfits
  · rw [heq]
    show Inv (IOBuf.incRef (s.setBuf x (s.bufs x ++ [r])) r.block) hand
    rw [incRef_setBuf]
    have hrecounts := incRef_recounts hk
    rw [← hrecounts.bufs]
    refine (h.incRef hk).concat rfl fun k' hk' => ?_
    obtain ⟨k₀, hk₀, hsize, -⟩ := hrecounts.blocks r.block k' hk'
    have hfit := hfits k₀ hk₀
    exact ⟨hfit.1, hsize ▸ hfit.2⟩

/-- **`_move_back_ref`** takes the reference from the hand. -/
theorem Inv.moveBackRef {x : ℕ} {r : BlockRef} (h : Inv s (r.block :: hand)) {k : Block}
    (hk : s.blocks r.block = some k) (hr : r.Fits k) : Inv (IOBuf.pushBackRef true x r s) hand := by
  have hfits := hr.of_live hk
  rcases pushBackRef_cases true x r s with ⟨back, hends, heq⟩ | heq
  · rw [heq]
    exact (h.merge hends hfits).decRef.1
  · rw [heq]
    exact h.concat rfl hfits

/-! ### Writing -/

/-- A holder that may write into `b` is the only one. -/
theorem Inv.ne_of_writable (h : Inv s hand) {p q : Holder} {c : ℕ} (hb : b ∈ s.writable p)
    (hc : c ∈ s.writable q) (hpq : q ≠ p) : c ≠ b := by
  rintro rfl
  exact hpq (h.shape.separate.eq_of_mem hc hb)

theorem slice_write_of_ne {c offset o n : ℕ} {data : List UInt8} (hc : c ≠ b) :
    slice (s.write b offset data).memory c o n = slice s.memory c o n :=
  List.map_congr_left fun _ _ => if_neg fun hin => hc hin.1

/-- **Writing into a block** that is in a chain, or in a read that has not received yet. -/
theorem Inv.write (h : Inv s hand) {p : Holder} (hb : b ∈ s.writable p)
    (hp : ∀ i r, p = .read i → s.reads i = some r → r.result = none) (offset : ℕ)
    (data : List UInt8) : Inv (s.write b offset data) hand := by
  refine ⟨⟨h.counted.tame, h.counted.balanced, h.counted.positive⟩, h.shape.fresh, h.shape.fits,
    h.shape.separate, h.shape.own, h.shape.user, h.shape.refs, fun i r hi k hk => ?_⟩
  have hold := h.shape.reads i r hi k hk
  refine ⟨hold.start, hold.room, fun res bytes hres => ?_⟩
  have hne : r.block ≠ b := by
    refine h.ne_of_writable hb (mem_writable_read hi) ?_
    rintro rfl
    rw [hp i r rfl hi] at hres
    cases hres
  rw [slice_write_of_ne hne]
  exact hold.received res bytes hres

theorem grow_eq {k : Block} {n : ℕ} (hk : s.blocks b = some k) :
    grow b n s = s.setBlock b (some { k with size := k.size + n }) := by
  rw [grow, hk]

/-- **A block in a chain gets longer.** -/
theorem Inv.grow (h : Inv s hand) (hb : b ∈ s.tls t) {k : Block} (hk : s.blocks b = some k)
    {n : ℕ} (hn : k.size + n ≤ k.cap) : Inv (grow b n s) hand := by
  have hwritable : b ∈ s.writable (.tls t) := hb
  have hown := h.shape.own (.tls t) b hwritable k hk
  rw [grow_eq hk]
  refine ⟨h.counted.setBlock (fun k' hk' => ?_) fun a => ?_, ?_⟩
  · obtain rfl := Option.some.inj hk'
    exact h.counted.positive b k hk
  · show (if a = b then k.nshared else s.refs a) + _ =
      s.refs a + (k.kind.target.toList ++ hand).count a
    rw [targets_eq hk]
    split
    · rename_i ha
      rw [ha, refs_eq hk]
    · rfl
  refine ⟨fun c k' hk' => ?_, fun c k' hk' => ?_, h.shape.separate, fun q c hc k' hk' => ?_,
    fun u k' target start hk' hkind => ?_, fun x r hr k' hk' => ?_, fun i r hi k' hk' => ?_⟩
  · rcases s.setBlock_cases hk' with ⟨rfl, -⟩ | ⟨-, hk'⟩
    · exact h.shape.fresh c k hk
    · exact h.shape.fresh c k' hk'
  · rcases s.setBlock_cases hk' with ⟨-, hk'⟩ | ⟨-, hk'⟩
    · obtain rfl := Option.some.inj hk'
      exact hn
    · exact h.shape.fits c k' hk'
  · rcases s.setBlock_cases hk' with ⟨-, hk'⟩ | ⟨-, hk'⟩
    · obtain rfl := Option.some.inj hk'
      exact hown
    · exact h.shape.own q c hc k' hk'
  · rcases s.setBlock_cases hk' with ⟨-, hk'⟩ | ⟨-, hk'⟩
    · obtain rfl := Option.some.inj hk'
      cases hown.symm.trans hkind
    · obtain ⟨hout, hborrows⟩ := h.shape.user u k' target start hk' hkind
      refine ⟨hout, fun m hm => ?_⟩
      rcases s.setBlock_cases hm with ⟨rfl, -⟩ | ⟨-, hm⟩
      · exact absurd ⟨.tls t, hwritable⟩ hout
      · exact hborrows m hm
  · rcases s.setBlock_cases hk' with ⟨hc, hk'⟩ | ⟨-, hk'⟩
    · obtain rfl := Option.some.inj hk'
      have hfits := h.shape.refs x r hr k (hc ▸ hk)
      exact ⟨hfits.1, hfits.2.trans (Nat.le_add_right _ _)⟩
    · exact h.shape.refs x r hr k' hk'
  · rcases s.setBlock_cases hk' with ⟨hc, -⟩ | ⟨-, hk'⟩
    · exact absurd hc (h.ne_of_writable hwritable (mem_writable_read hi) nofun)
    · exact h.shape.reads i r hi k' hk'

theorem Keeps.grow {k : Block} {n : ℕ} (hk : s.blocks b = some k) : Keeps s (IOBuf.grow b n s) := by
  rw [grow_eq hk]
  refine ⟨rfl, rfl, rfl, le_refl _, fun c k' _ hk' => ?_⟩
  rcases s.setBlock_cases hk' with ⟨rfl, hnew⟩ | ⟨-, hk'⟩
  · obtain rfl := Option.some.inj hnew
    exact ⟨k, hk, rfl⟩
  · exact ⟨k', hk', rfl⟩

end Moves

end IOBuf
