/-
The blocks of `butil::IOBuf` (`3rd_party/butil/iobuf.cpp`, `iobuf_inl.h`) and the reads of
`ReadAwaiter` into them (`awaiter/socket_awaiter.hpp`).

A block is counted by `nshared`.  Every thread keeps a chain of blocks (`tls`), to which
`IOBuf::append` adds bytes and from which `ReadAwaiter::await_suspend` takes the block that the
kernel receives into.  `await_resume` puts the bytes received into the target as a user data
block, which has no memory of its own: it points into the block and gives it back when it is
deleted.

A block has a number that is never used again, as the memory of two allocated blocks does not
overlap.  Allocation succeeds.  `cap` is the capacity that `create_block` gives a block.

Numbers are natural numbers.  In the code `nshared` is an `atomic<int>` and the lengths,
offsets and sizes are `uint32_t`: nothing wraps as long as a block has fewer than 2^31
references and `cap` and what is read at once are below 2^31.  The sums of lengths are those
of the views (`IOBufView`).

* `incRef`, `decRef`, `createBlock`, `acquireTlsBlock`, `shareTlsBlock`, `pushBackRef`,
  `append`, `appendUserData`, `popFront` — the functions of `butil`;
* `step` — the reads and the other uses of buffers, each call a step of some thread;
* `contents`, `Spec` — what the buffers are for: sequences of bytes.
-/
import AntServer.StepSystem

namespace IOBuf

/-! ### Blocks -/

/-- What `data` of a block is: memory of the block itself, or, for a user data block, memory of
the block `target` from `start` on; the deleter then gives `target` back. -/
inductive Kind
  | own
  | user (target start : ℕ)
deriving DecidableEq, Repr

/-- What the deleter gives back. -/
def Kind.target : Kind → Option ℕ
  | .own => none
  | .user target _ => some target

structure Block where
  nshared : ℕ
  size : ℕ
  cap : ℕ
  kind : Kind
deriving DecidableEq, Repr

structure BlockRef where
  offset : ℕ
  length : ℕ
  block : ℕ
deriving DecidableEq, Repr

/-- A `ReadAwaiter` in `IOBuf` mode between `await_suspend` and `await_resume`. -/
structure Read where
  block : ℕ                               -- `block_`
  start : ℕ                               -- `write_ptr`, from the start of the block
  room : ℕ                                -- `max_bytes`
  buf : ℕ                                 -- `target_iobuf_`
  result : Option (ℤ × List UInt8)        -- `res_` once it is set, with the bytes received
deriving DecidableEq, Repr

structure State where
  blocks : ℕ → Option Block     -- the blocks that are allocated
  memory : ℕ → ℕ → UInt8        -- the bytes of a block
  fresh : ℕ                     -- the number of the next block
  tls : ℕ → List ℕ              -- the chain of each thread, from `block_head`
  bufs : ℕ → List BlockRef
  reads : ℕ → Option Read
  bad : Bool                    -- a block was used that is not allocated

def init : State where
  blocks := fun _ => none
  memory := fun _ _ => 0
  fresh := 0
  tls := fun _ => []
  bufs := fun _ => []
  reads := fun _ => none
  bad := false

namespace State

variable (s : State)

def setBlock (b : ℕ) (k : Option Block) : State := { s with blocks := Function.update s.blocks b k }

def setTls (t : ℕ) (chain : List ℕ) : State := { s with tls := Function.update s.tls t chain }

def setBuf (x : ℕ) (refs : List BlockRef) : State :=
  { s with bufs := Function.update s.bufs x refs }

def setRead (i : ℕ) (r : Option Read) : State := { s with reads := Function.update s.reads i r }

/-- Write `data` into the block `b` from `offset` on. -/
def write (b offset : ℕ) (data : List UInt8) : State :=
  { s with
    memory := fun c o =>
      if c = b ∧ offset ≤ o ∧ o < offset + data.length then data.getD (o - offset) 0
      else s.memory c o }

@[simp] theorem setBlock_self (b : ℕ) (k : Option Block) : (s.setBlock b k).blocks b = k :=
  Function.update_self ..

theorem setBlock_of_ne {b c : ℕ} (h : c ≠ b) (k : Option Block) :
    (s.setBlock b k).blocks c = s.blocks c :=
  Function.update_of_ne h ..

/-- What a block was before the change of `b`. -/
theorem setBlock_cases {b c : ℕ} {o : Option Block} {k : Block}
    (h : (s.setBlock b o).blocks c = some k) :
    c = b ∧ o = some k ∨ c ≠ b ∧ s.blocks c = some k := by
  by_cases hc : c = b
  · subst hc
    rw [setBlock_self] at h
    exact Or.inl ⟨rfl, h⟩
  · rw [setBlock_of_ne s hc] at h
    exact Or.inr ⟨hc, h⟩

@[simp] theorem setTls_self (t : ℕ) (chain : List ℕ) : (s.setTls t chain).tls t = chain :=
  Function.update_self ..

@[simp] theorem setRead_self (i : ℕ) (r : Option Read) : (s.setRead i r).reads i = r :=
  Function.update_self ..

theorem setRead_of_ne {i j : ℕ} (h : j ≠ i) (r : Option Read) :
    (s.setRead i r).reads j = s.reads j :=
  Function.update_of_ne h ..

/-- What a read was before the change of `i`. -/
theorem setRead_cases {i j : ℕ} {o : Option Read} {r : Read}
    (h : (s.setRead i o).reads j = some r) : j = i ∧ o = some r ∨ j ≠ i ∧ s.reads j = some r := by
  by_cases hj : j = i
  · subst hj
    rw [setRead_self] at h
    exact Or.inl ⟨rfl, h⟩
  · rw [setRead_of_ne s hj] at h
    exact Or.inr ⟨hj, h⟩

@[simp] theorem setBuf_self (x : ℕ) (refs : List BlockRef) : (s.setBuf x refs).bufs x = refs :=
  Function.update_self ..

theorem setBuf_of_ne {x y : ℕ} (h : y ≠ x) (refs : List BlockRef) :
    (s.setBuf x refs).bufs y = s.bufs y :=
  Function.update_of_ne h ..

end State

/-! ### Counting -/

def incRef (s : State) (b : ℕ) : State :=
  match s.blocks b with
  | none => { s with bad := true }
  | some k => s.setBlock b (some { k with nshared := k.nshared + 1 })

/-- `dec_ref`, with the block that the deleter of a user data block is to give back. -/
def decRefOnce (s : State) (b : ℕ) : State × Option ℕ :=
  match s.blocks b with
  | none => ({ s with bad := true }, none)
  | some k =>
    if k.nshared = 1 then (s.setBlock b none, k.kind.target)
    else (s.setBlock b (some { k with nshared := k.nshared - 1 }), none)

/-- `dec_ref`; the deleters of `await_resume` give back blocks with memory of their own. -/
def decRef (s : State) (b : ℕ) : State :=
  match decRefOnce s b with
  | (s', none) => s'
  | (s', some target) => (decRefOnce s' target).1

def decRefAll (s : State) (bs : List ℕ) : State := bs.foldl decRef s

/-! ### The chains of the threads -/

section Tls

variable (cap : ℕ)

/-- `create_block`; the block is number `s.fresh`. -/
def createBlock (s : State) : State :=
  { s.setBlock s.fresh (some ⟨1, 0, cap, .own⟩) with fresh := s.fresh + 1 }

def State.full (s : State) (b : ℕ) : Bool :=
  match s.blocks b with
  | none => false
  | some k => k.cap ≤ k.size

/-- The loop of `acquire_tls_block` and `share_tls_block`: full blocks at the head of the chain
are given back. -/
def dropFull (t : ℕ) : List ℕ → State → State
  | [], s => s
  | b :: rest, s => if s.full b then dropFull t rest (decRef (s.setTls t rest) b) else s

def acquireTlsBlock (t : ℕ) (s : State) : State × ℕ :=
  let s := dropFull t (s.tls t) s
  match s.tls t with
  | [] => (createBlock cap s, s.fresh)
  | b :: rest => (s.setTls t rest, b)

def shareTlsBlock (t : ℕ) (s : State) : State × ℕ :=
  let s := dropFull t (s.tls t) s
  match s.tls t with
  | [] => ((createBlock cap s).setTls t [s.fresh], s.fresh)
  | b :: _ => (s, b)

/-- `remove_tls_block_chain`, at the exit of a thread. -/
def removeTlsBlockChain (t : ℕ) (s : State) : State := decRefAll (s.setTls t []) (s.tls t)

end Tls

/-! ### Buffers -/

/-- `_push_back_ref`, or `_move_back_ref` if `move`; a reference that goes on where the last one
ends is merged into it. -/
def pushBackRef (move : Bool) (x : ℕ) (r : BlockRef) (s : State) : State :=
  match (s.bufs x).getLast? with
  | some back =>
    if back.block = r.block ∧ back.offset + back.length = r.offset then
      let merged := { back with length := back.length + r.length }
      let s := s.setBuf x ((s.bufs x).dropLast ++ [merged])
      if move then decRef s r.block else s
    else
      let s := s.setBuf x (s.bufs x ++ [r])
      if move then s else incRef s r.block
  | none =>
    let s := s.setBuf x (s.bufs x ++ [r])
    if move then s else incRef s r.block

/-- `b->size += nc`. -/
def grow (b nc : ℕ) (s : State) : State :=
  match s.blocks b with
  | none => { s with bad := true }
  | some k => s.setBlock b (some { k with size := k.size + nc })

/-- The loop of `append`; a round copies at least one byte. -/
def appendLoop (cap t x : ℕ) : ℕ → List UInt8 → State → State
  | 0, _, s => s
  | _, [], s => s
  | fuel + 1, data, s =>
    let (s, b) := shareTlsBlock cap t s
    match s.blocks b with
    | none => { s with bad := true }
    | some k =>
      let nc := min data.length (k.cap - k.size)
      let s := s.write b k.size (data.take nc)
      let s := pushBackRef false x ⟨k.size, nc, b⟩ s
      let s := grow b nc s
      appendLoop cap t x fuel (data.drop nc) s

/-- `append(data, count)` on the thread `t`. -/
def append (cap t x : ℕ) (data : List UInt8) (s : State) : State :=
  appendLoop cap t x data.length data s

/-- `append(other)`. -/
def appendBuf (x y : ℕ) (s : State) : State :=
  (s.bufs y).foldl (fun s r => pushBackRef false x r s) s

/-- `append_user_data`, with a deleter that gives `target` back. -/
def appendUserData (x target start size : ℕ) (s : State) : State :=
  if size = 0 then decRef s target
  else
    let u := s.fresh
    pushBackRef true x ⟨0, size, u⟩
      { s.setBlock u (some ⟨1, size, size, .user target start⟩) with fresh := u + 1 }

def length (refs : List BlockRef) : ℕ := (refs.map BlockRef.length).sum

/-- The loop of `pop_front`: what is left, and the blocks to give back. -/
def popRefs : ℕ → List BlockRef → List BlockRef × List ℕ
  | _, [] => ([], [])
  | n, r :: rest =>
    if n = 0 then (r :: rest, [])
    else if n < r.length then
      ({ r with offset := r.offset + n, length := r.length - n } :: rest, [])
    else
      let (refs, bs) := popRefs (n - r.length) rest
      (refs, r.block :: bs)

def clear (x : ℕ) (s : State) : State :=
  decRefAll (s.setBuf x []) ((s.bufs x).map BlockRef.block)

def popFront (x n : ℕ) (s : State) : State :=
  if length (s.bufs x) ≤ n then clear x s
  else
    let (refs, bs) := popRefs n (s.bufs x)
    decRefAll (s.setBuf x refs) bs

/-! ### Reads -/

/-- `ReadAwaiter::await_suspend` on the thread `t`. -/
def awaitSuspend (cap t i x : ℕ) (s : State) : State :=
  let (s, b) := acquireTlsBlock cap t s
  match s.blocks b with
  | none => { s with bad := true }
  | some k => s.setRead i (some ⟨b, k.size, k.cap - k.size, x, none⟩)

/-- The kernel writes `data` into the range that it was handed, and completes the read with the
result `res`. -/
def complete (i : ℕ) (res : ℤ) (data : List UInt8) (s : State) : Option State :=
  match s.reads i with
  | some ⟨b, start, room, x, none⟩ =>
    if data.length ≤ room ∧ res ≤ data.length then
      match s.blocks b with
      | none => some { s with bad := true }
      | some _ =>
        some ((s.write b start data).setRead i
          (some ⟨b, start, room, x, some (res, data.take res.toNat)⟩))
    else none
  | _ => none

/-- `ReadAwaiter::await_resume`. -/
def awaitResume (i : ℕ) (s : State) : Option State :=
  match s.reads i with
  | some ⟨b, _, _, x, some (res, _)⟩ =>
    let s := s.setRead i none
    if 0 < res then
      match s.blocks b with
      | none => some { s with bad := true }
      | some k => some (decRef (appendUserData x b k.size res.toNat (incRef s b)) b)
    else some (decRef s b)
  | _ => none

inductive Label
  | suspend (t i x : ℕ)
  | complete (i : ℕ) (res : ℤ) (data : List UInt8)
  | resume (i : ℕ)
  | append (t x : ℕ) (data : List UInt8)
  | appendBuf (x y : ℕ)
  | popFront (x n : ℕ)
  | clear (x : ℕ)
  | exit (t : ℕ)
deriving DecidableEq, Repr

/-- A buffer is not appended to itself. -/
def step (cap : ℕ) (s : State) : Label → Option State
  | .suspend t i x => if s.reads i = none then some (awaitSuspend cap t i x s) else none
  | .complete i res data => complete i res data s
  | .resume i => awaitResume i s
  | .append t x data => some (append cap t x data s)
  | .appendBuf x y => if x ≠ y then some (appendBuf x y s) else none
  | .popFront x n => some (popFront x n s)
  | .clear x => some (clear x s)
  | .exit t => some (removeTlsBlockChain t s)

/-! ### What the buffers are for -/

/-- The bytes `[offset, offset + len)` of the block `b`. -/
def slice (memory : ℕ → ℕ → UInt8) (b offset len : ℕ) : List UInt8 :=
  (List.range len).map fun k => memory b (offset + k)

/-- Where `data` of a block points. -/
def Kind.base (b : ℕ) : Kind → ℕ × ℕ
  | .own => (b, 0)
  | .user target start => (target, start)

def State.base (s : State) (b : ℕ) : Option (ℕ × ℕ) := (s.blocks b).map fun k => k.kind.base b

def refBytes (s : State) (r : BlockRef) : List UInt8 :=
  (s.base r.block).elim [] fun p => slice s.memory p.1 (p.2 + r.offset) r.length

def contents (s : State) (x : ℕ) : List UInt8 := (s.bufs x).flatMap (refBytes s)

/-- The buffers as sequences of bytes, and the reads with their targets and results. -/
@[ext] structure Spec where
  bufs : ℕ → List UInt8
  reads : ℕ → Option (ℕ × Option (ℤ × List UInt8))

def State.spec (s : State) : Spec where
  bufs := contents s
  reads := fun i => (s.reads i).map fun r => (r.buf, r.result)

namespace Spec

def init : Spec := ⟨fun _ => [], fun _ => none⟩

def setBuf (a : Spec) (x : ℕ) (bytes : List UInt8) : Spec :=
  { a with bufs := Function.update a.bufs x bytes }

def setRead (a : Spec) (i : ℕ) (r : Option (ℕ × Option (ℤ × List UInt8))) : Spec :=
  { a with reads := Function.update a.reads i r }

@[simp] theorem setBuf_self (a : Spec) (x : ℕ) (bytes : List UInt8) :
    (a.setBuf x bytes).bufs x = bytes :=
  Function.update_self ..

@[simp] theorem setBuf_setBuf (a : Spec) (x : ℕ) (bytes bytes' : List UInt8) :
    (a.setBuf x bytes).setBuf x bytes' = a.setBuf x bytes' := by
  rw [setBuf, setBuf, setBuf, Function.update_idem]

@[simp] theorem setBuf_bufs (a : Spec) (x : ℕ) : a.setBuf x (a.bufs x) = a := by
  rw [setBuf, Function.update_eq_self]

/-- The received bytes, none if the result is not positive, are appended when the read is
resumed; a step changes no other buffer than its own. -/
def step (a : Spec) : Label → Spec
  | .suspend _ i x => a.setRead i (some (x, none))
  | .complete i res data =>
    a.setRead i ((a.reads i).map fun r => (r.1, some (res, data.take res.toNat)))
  | .resume i =>
    match a.reads i with
    | some (x, some (_, bytes)) => (a.setRead i none).setBuf x (a.bufs x ++ bytes)
    | _ => a
  | .append _ x data => a.setBuf x (a.bufs x ++ data)
  | .appendBuf x y => a.setBuf x (a.bufs x ++ a.bufs y)
  | .popFront x n => a.setBuf x ((a.bufs x).drop n)
  | .clear x => a.setBuf x []
  | .exit _ => a

end Spec

end IOBuf
