/-
Xor-shifts of words.

A word is combined by xor with a shifted copy of itself.  The bits that are shifted out are
lost, but no information is: the shift respects xor, and when it is iterated nothing is left of
the word, so that no word but zero is its own shift.

* `Vanishing g` — `g` respects xor, and an iterate of it is zero;
* `vanishing_shiftLeft`, `vanishing_ushiftRight` — the shifts by at least one bit;
* `Vanishing.bijective` — **`x ^ g x` is a bijection**.
-/
import Mathlib

namespace XorShift

variable {w k : ℕ} {g : BitVec w → BitVec w}

structure Vanishing (g : BitVec w → BitVec w) : Prop where
  xor : ∀ x y, g (x ^^^ y) = g x ^^^ g y
  iterate : ∃ n, ∀ x, g^[n] x = 0#w

/-- A word that is its own image is zero. -/
theorem Vanishing.eq_zero_of_fixed (h : Vanishing g) {x : BitVec w} (hx : g x = x) :
    x = 0#w := by
  obtain ⟨n, hn⟩ := h.iterate
  rw [← hn x]
  exact (Function.iterate_fixed hx n).symm

theorem Vanishing.injective (h : Vanishing g) : Function.Injective fun x => x ^^^ g x := by
  intro x y hxy
  have hxy : x ^^^ g x = y ^^^ g y := hxy
  -- what the two words differ in is its own image
  have hfixed : g (x ^^^ y) = x ^^^ y := by
    rw [h.xor]
    calc g x ^^^ g y = x ^^^ (x ^^^ g x) ^^^ g y := by rw [← BitVec.xor_assoc, BitVec.xor_self,
            BitVec.zero_xor]
      _ = x ^^^ (y ^^^ g y) ^^^ g y := by rw [hxy]
      _ = x ^^^ y := by rw [BitVec.xor_assoc, BitVec.xor_assoc, BitVec.xor_self, BitVec.xor_zero]
  exact BitVec.xor_eq_zero_iff.mp (h.eq_zero_of_fixed hfixed)

/-- **No two words have the same xor-shift, and every word is one.** -/
theorem Vanishing.bijective (h : Vanishing g) : Function.Bijective fun x => x ^^^ g x := by
  have : Finite (BitVec w) := Finite.of_injective BitVec.toFin fun _ _ => BitVec.eq_of_toFin_eq
  exact Finite.injective_iff_bijective.mp h.injective

/-! ### Shifts -/

theorem iterate_shiftLeft (x : BitVec w) (n : ℕ) :
    (fun y : BitVec w => y <<< k)^[n] x = x <<< (n * k) := by
  induction n with
  | zero => rw [Function.iterate_zero, Nat.zero_mul, BitVec.shiftLeft_zero, id]
  | succ n ih => rw [Function.iterate_succ_apply', ih, Nat.succ_mul, BitVec.shiftLeft_add]

theorem iterate_ushiftRight (x : BitVec w) (n : ℕ) :
    (fun y : BitVec w => y >>> k)^[n] x = x >>> (n * k) := by
  induction n with
  | zero => rw [Function.iterate_zero, Nat.zero_mul, BitVec.ushiftRight_zero, id]
  | succ n ih => rw [Function.iterate_succ_apply', ih, Nat.succ_mul, BitVec.shiftRight_add]

theorem vanishing_shiftLeft (hk : 0 < k) : Vanishing fun x : BitVec w => x <<< k where
  xor x y := BitVec.shiftLeft_xor_distrib x y k
  iterate := by
    refine ⟨w, fun x => ?_⟩
    rw [iterate_shiftLeft]
    exact BitVec.shiftLeft_eq_zero (Nat.le_mul_of_pos_right w hk)

theorem vanishing_ushiftRight (hk : 0 < k) : Vanishing fun x : BitVec w => x >>> k where
  xor x y := BitVec.ushiftRight_xor_distrib x y k
  iterate := by
    refine ⟨w, fun x => ?_⟩
    rw [iterate_ushiftRight]
    exact BitVec.ushiftRight_eq_zero (Nat.le_mul_of_pos_right w hk)

end XorShift
