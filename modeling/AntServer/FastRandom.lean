/-
`ant_server::fast_random` (utils/random.hpp).

Each thread has its own state `x`, a word of 32 bits.  It is initialized in the thread's first
call, from the address of `x` itself, and every call replaces it by its xor-shift and returns it.

* `seed` — the initial value; an aligned address is even and the constant is odd, so it is not
  zero (`seed_ne_zero`);
* `update` — the three xor-shifts of a call, a bijection that takes zero to zero;
* `fast_random_ne_zero` — **no state and no number returned is ever zero**, on any thread.
-/
import AntServer.StepSystem
import AntServer.XorShift

namespace FastRandom

variable {w : ℕ} {T : Type*}

/-- `alignof(uint32_t)`. -/
def uint32Alignment : ℕ := 4

/-- A `uint32_t` may have the address, a pointer of `w` bits. -/
def Aligned (address : BitVec w) : Prop := uint32Alignment ∣ address.toNat

/-- `static_cast<uint32_t>(reinterpret_cast<uintptr_t>(&x)) ^ 0x9e3779b9`. -/
def seed (address : BitVec w) : BitVec 32 := address.setWidth 32 ^^^ 0x9e3779b9#32

def update (x : BitVec 32) : BitVec 32 :=
  let x := x ^^^ (x <<< 13)
  let x := x ^^^ (x >>> 17)
  x ^^^ (x <<< 5)

/-- A call by the thread whose `x` is at `address`; `none` says that it is the first one. -/
def fastRandom (address : BitVec w) (x : Option (BitVec 32)) : BitVec 32 :=
  update (x.getD (seed address))

structure State (T : Type*) where
  x : T → Option (BitVec 32)
  draws : List (T × BitVec 32)    -- history: what the calls returned

def init : State T := ⟨fun _ => none, []⟩

/-- The thread `t` calls `fast_random`. -/
def step [DecidableEq T] (address : T → BitVec w) (s : State T) (t : T) : Option (State T) :=
  let r := fastRandom (address t) (s.x t)
  some ⟨Function.update s.x t (some r), s.draws ++ [(t, r)]⟩

/-! ### The word -/

theorem getLsbD_zero_of_aligned {address : BitVec w} (h : Aligned address) :
    address.getLsbD 0 = false := by
  obtain ⟨m, hm⟩ := h
  rw [BitVec.getLsbD, hm, Nat.testBit_zero, uint32Alignment]
  exact decide_eq_false (by omega)

/-- **The seed is not zero**: its lowest bit is that of the constant. -/
theorem seed_ne_zero {address : BitVec w} (h : Aligned address) : seed address ≠ 0#32 := by
  intro hzero
  have hbit := congrArg (fun x : BitVec 32 => x.getLsbD 0) hzero
  have hodd : (0x9e3779b9#32).getLsbD 0 = true := by decide
  simp only [seed, BitVec.getLsbD_xor, BitVec.getLsbD_setWidth, getLsbD_zero_of_aligned h, hodd,
    BitVec.getLsbD_zero] at hbit
  exact absurd hbit (by decide)

theorem update_bijective : Function.Bijective update := by
  have hfirst := (XorShift.vanishing_shiftLeft (w := 32) (k := 13) (by decide)).bijective
  have hsecond := (XorShift.vanishing_ushiftRight (w := 32) (k := 17) (by decide)).bijective
  have hthird := (XorShift.vanishing_shiftLeft (w := 32) (k := 5) (by decide)).bijective
  exact hthird.comp (hsecond.comp hfirst)

theorem update_zero : update 0#32 = 0#32 := by decide

theorem update_ne_zero {x : BitVec 32} (hx : x ≠ 0#32) : update x ≠ 0#32 := by
  intro hzero
  exact hx (update_bijective.injective (hzero.trans update_zero.symm))

/-! ### Calls -/

structure NeverZero (s : State T) : Prop where
  state : ∀ t x, s.x t = some x → x ≠ 0#32
  draws : ∀ d ∈ s.draws, d.2 ≠ 0#32

theorem NeverZero.fastRandom {address : BitVec w} (hal : Aligned address) {s : State T}
    (h : NeverZero s) (t : T) : fastRandom address (s.x t) ≠ 0#32 := by
  refine update_ne_zero ?_
  cases hx : s.x t with
  | none => exact seed_ne_zero hal
  | some x => exact h.state t x hx

theorem NeverZero.step [DecidableEq T] {address : T → BitVec w} (hal : ∀ t, Aligned (address t))
    {s s' : State T} {t : T} (h : NeverZero s) (hs : step address s t = some s') :
    NeverZero s' := by
  have hr := h.fastRandom (hal t) t
  obtain rfl := Option.some.inj hs
  constructor
  · intro u x hx
    have hx : Function.update s.x t (some (FastRandom.fastRandom (address t) (s.x t))) u = some x :=
      hx
    by_cases hu : u = t
    · subst hu
      rw [Function.update_self] at hx
      exact Option.some.inj hx ▸ hr
    · rw [Function.update_of_ne hu] at hx
      exact h.state u x hx
  · intro d hd
    rcases List.mem_append.mp hd with hd | hd
    · exact h.draws d hd
    · rw [List.mem_singleton.mp hd]
      exact hr

/-- **`fast_random` never degenerates.**  On threads whose states have any aligned addresses,
after any calls, no state is zero and no call has returned zero; the seeds are not zero, and a
call is a bijection of the words that takes zero to zero. -/
theorem fast_random_ne_zero [DecidableEq T] (address : T → BitVec w)
    (hal : ∀ t, Aligned (address t)) (calls : List T) (s : State T)
    (hrun : StepSystem.run (step address) init calls = some s) :
    NeverZero s ∧ (∀ t, seed (address t) ≠ 0#32) ∧ Function.Bijective update ∧
      update 0#32 = 0#32 := by
  have hinit : NeverZero (init : State T) := ⟨nofun, nofun⟩
  refine ⟨?_, fun t => seed_ne_zero (hal t), update_bijective, update_zero⟩
  exact StepSystem.run_invariant (fun _ _ _ h hs => h.step hal hs) hinit hrun

/-- Two threads; the low half of the second address is that of a null pointer. -/
def twoAddresses : Bool → BitVec 64
  | false => 0x7f31c2a016bc#64
  | true => 0x7f3100000000#64

theorem fast_random_ne_zero_two :
    ∃ s, StepSystem.run (step twoAddresses) init [false, true, false] = some s ∧
      s.draws.length = 3 ∧ NeverZero s := by
  have hrun : ∃ s, StepSystem.run (step twoAddresses) init [false, true, false] = some s ∧
      s.draws.length = 3 := ⟨_, rfl, rfl⟩
  have hal : ∀ t, Aligned (twoAddresses t) := by
    intro t
    cases t <;> exact Nat.dvd_of_mod_eq_zero (by decide)
  obtain ⟨s, hs, hlen⟩ := hrun
  exact ⟨s, hs, hlen, (fast_random_ne_zero twoAddresses hal _ s hs).1⟩

end FastRandom
