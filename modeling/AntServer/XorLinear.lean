/-
Linear maps of words, with xor for addition, and how long their iterates take to repeat.

A polynomial over the field of two elements is a number, its binary digits being the
coefficients; `eval T n p` is the map `p(T)`, for the lower `n` coefficients.  If a polynomial
`χ` of degree `w` makes `T` vanish, every polynomial in `T` has a residue below `2 ^ w`, and the
residue of a power of `T` is found by squaring.

* `eval_mul`, `eval_pow` — residues are multiplied as the maps are composed;
* `minimalPeriod_eq` — the period of every word but zero, from finitely many residues;
* `window_perm` — a map with the longest period takes every word but zero once in each period.
-/
import Mathlib

namespace XorLinear

variable {v w χ : ℕ} {T : BitVec v → BitVec v}

def Linear (T : BitVec v → BitVec v) : Prop := ∀ x y, T (x ^^^ y) = T x ^^^ T y

theorem xor_xor_xor_comm (a b c d : BitVec v) :
    (a ^^^ b) ^^^ (c ^^^ d) = (a ^^^ c) ^^^ (b ^^^ d) := by
  rw [BitVec.xor_assoc, ← BitVec.xor_assoc b c d, BitVec.xor_comm b c, BitVec.xor_assoc c b d,
    ← BitVec.xor_assoc]

theorem Linear.comp {S : BitVec v → BitVec v} (hT : Linear T) (hS : Linear S) :
    Linear fun x => T (S x) := by
  intro x y
  beta_reduce
  rw [hS, hT]

/-- A word and its image, added. -/
theorem Linear.xorSelf (hT : Linear T) : Linear fun x => x ^^^ T x := by
  intro x y
  beta_reduce
  rw [hT, xor_xor_xor_comm]

theorem Linear.zero (hT : Linear T) : T 0#v = 0#v := by
  have h := hT 0#v 0#v
  rwa [BitVec.xor_self, BitVec.xor_self] at h

theorem Linear.ite (hT : Linear T) (c : Prop) [Decidable c] (x : BitVec v) :
    T (if c then x else 0#v) = if c then T x else 0#v := by
  split
  · rfl
  · exact hT.zero

/-- The lower `n` coefficients of `p`, applied to `T`. -/
def eval (T : BitVec v → BitVec v) : ℕ → ℕ → BitVec v → BitVec v
  | 0, _, _ => 0#v
  | n + 1, p, x => (if p % 2 = 1 then x else 0#v) ^^^ T (eval T n (p / 2) x)

section Eval

variable {n m p q : ℕ} {x y : BitVec v}

theorem eval_zero (hT : Linear T) : eval T n 0 x = 0#v := by
  induction n with
  | zero => rfl
  | succ n ih =>
    rw [eval, Nat.zero_div, ih, hT.zero, Nat.zero_mod, if_neg Nat.zero_ne_one, BitVec.xor_zero]

/-- The coefficients above the degree do not matter. -/
theorem eval_of_lt (hT : Linear T) (hp : p < 2 ^ n) (hnm : n ≤ m) :
    eval T m p x = eval T n p x := by
  induction n generalizing m p with
  | zero =>
    obtain rfl : p = 0 := Nat.lt_one_iff.mp hp
    rw [eval_zero hT, eval_zero hT]
  | succ n ih =>
    obtain ⟨m, rfl⟩ : ∃ m', m = m' + 1 := Nat.exists_eq_succ_of_ne_zero (by omega)
    have hhalf : p / 2 < 2 ^ n := by omega
    rw [eval, eval, ih hhalf (Nat.le_of_succ_le_succ hnm)]

theorem ite_xor (hp : (p ^^^ q) % 2 = (p % 2 + q % 2) % 2) :
    (if (p ^^^ q) % 2 = 1 then x else 0#v) =
      (if p % 2 = 1 then x else 0#v) ^^^ if q % 2 = 1 then x else 0#v := by
  rcases Nat.mod_two_eq_zero_or_one p with hp' | hp' <;>
    rcases Nat.mod_two_eq_zero_or_one q with hq' | hq' <;> simp [hp, hp', hq']

/-- Polynomials are added. -/
theorem eval_xor (hT : Linear T) : eval T n (p ^^^ q) x = eval T n p x ^^^ eval T n q x := by
  induction n generalizing p q with
  | zero => exact BitVec.xor_self.symm
  | succ n ih =>
    have hmod : (p ^^^ q) % 2 = (p % 2 + q % 2) % 2 := by
      rw [Nat.xor_mod_two_eq]
      omega
    rw [eval, eval, eval, Nat.xor_div_two, ih, hT, ite_xor hmod, xor_xor_xor_comm]

theorem linear_eval (hT : Linear T) : Linear (eval T n p) := by
  intro x y
  induction n generalizing p with
  | zero => exact (BitVec.xor_self).symm
  | succ n ih =>
    have hite : (if p % 2 = 1 then x ^^^ y else 0#v) =
        (if p % 2 = 1 then x else 0#v) ^^^ if p % 2 = 1 then y else 0#v := by
      split
      · rfl
      · rw [BitVec.xor_self]
    rw [eval, eval, eval, ih, hT, hite, xor_xor_xor_comm]

/-- A polynomial in `T` commutes with `T`. -/
theorem eval_apply (hT : Linear T) : eval T n p (T x) = T (eval T n p x) := by
  induction n generalizing p with
  | zero => exact hT.zero.symm
  | succ n ih => rw [eval, eval, ih, hT, hT.ite]

theorem eval_one (hT : Linear T) (hn : 0 < n) : eval T n 1 x = x := by
  obtain ⟨n, rfl⟩ := Nat.exists_eq_succ_of_ne_zero hn.ne'
  have hhigh : eval T n (1 / 2) x = 0#v := eval_zero hT
  rw [eval, if_pos rfl, hhigh, hT.zero, BitVec.xor_zero]

end Eval

/-! ### Residues -/

/-- `χ` has degree `w`. -/
def HasDegree (χ w : ℕ) : Prop := 2 ^ w ≤ χ ∧ χ < 2 ^ (w + 1)

/-- The residue of `X * p`. -/
def xtimes (χ w p : ℕ) : ℕ := if 2 ^ w ≤ 2 * p then 2 * p ^^^ χ else 2 * p

/-- The residue of `p * q`, for the lower `n` coefficients of `p`. -/
def mul (χ w : ℕ) : ℕ → ℕ → ℕ → ℕ
  | 0, _, _ => 0
  | n + 1, p, q => (if p % 2 = 1 then q else 0) ^^^ mul χ w n (p / 2) (xtimes χ w q)

/-- The residue of `p ^ k`, for an exponent of `n` binary digits. -/
def pow (χ w : ℕ) : ℕ → ℕ → ℕ → ℕ
  | 0, _, _ => 1
  | n + 1, p, k =>
    let r := pow χ w n (mul χ w w p p) (k / 2)
    if k % 2 = 1 then mul χ w w p r else r

section Residues

variable {n p q k : ℕ} {x : BitVec v}

/-- Of two numbers with the same leading digit the xor is shorter. -/
theorem xor_lt (hp : 2 ^ w ≤ p) (hp' : p < 2 ^ (w + 1)) (hq : 2 ^ w ≤ q) (hq' : q < 2 ^ (w + 1)) :
    p ^^^ q < 2 ^ w := by
  have hlead : ∀ m, 2 ^ w ≤ m → m < 2 ^ (w + 1) → m.testBit w = true := by
    intro m hm hm'
    rw [Nat.testBit_eq_decide_div_mod_eq, decide_eq_true_iff]
    have hdiv : m / 2 ^ w = 1 := by
      refine Nat.div_eq_of_lt_le ?_ ?_
      · rwa [Nat.one_mul]
      · rwa [← Nat.pow_succ']
    rw [hdiv]
  refine Nat.lt_pow_two_of_testBit _ fun i hi => ?_
  rw [Nat.testBit_xor]
  rcases Nat.eq_or_lt_of_le hi with rfl | hlt
  · rw [hlead p hp hp', hlead q hq hq', Bool.xor_self]
  · have hle : 2 ^ (w + 1) ≤ 2 ^ i := Nat.pow_le_pow_right Nat.two_pos hlt
    rw [Nat.testBit_lt_two_pow (hp'.trans_le hle), Nat.testBit_lt_two_pow (hq'.trans_le hle),
      Bool.xor_self]

theorem xtimes_lt (hχ : HasDegree χ w) (hp : p < 2 ^ w) : xtimes χ w p < 2 ^ w := by
  have hdouble : 2 * p < 2 ^ (w + 1) := by
    rw [Nat.pow_succ']
    omega
  rw [xtimes]
  split
  next hle => exact xor_lt hle hdouble hχ.1 hχ.2
  next hlt => exact not_le.mp hlt

theorem mul_lt (hχ : HasDegree χ w) (hq : q < 2 ^ w) : mul χ w n p q < 2 ^ w := by
  induction n generalizing p q with
  | zero => exact Nat.two_pow_pos w
  | succ n ih =>
    refine Nat.xor_lt_two_pow ?_ (ih (xtimes_lt hχ hq))
    split
    · exact hq
    · exact Nat.two_pow_pos w

theorem pow_lt (hχ : HasDegree χ w) (hw : 0 < w) (hp : p < 2 ^ w) : pow χ w n p k < 2 ^ w := by
  induction n generalizing p k with
  | zero => exact Nat.one_lt_two_pow hw.ne'
  | succ n ih =>
    rw [pow]
    split
    · exact mul_lt hχ (ih (mul_lt hχ hp))
    · exact ih (mul_lt hχ hp)

variable (hT : Linear T) (hχ : HasDegree χ w) (hzero : ∀ x, eval T (w + 1) χ x = 0#v)

include hT hχ hzero

theorem eval_xtimes (hp : p < 2 ^ w) : eval T w (xtimes χ w p) x = T (eval T w p x) := by
  have hdouble : eval T (w + 1) (2 * p) x = T (eval T w p x) := by
    rw [eval, Nat.mul_mod_right, if_neg Nat.zero_ne_one, Nat.mul_div_cancel_left p Nat.two_pos,
      BitVec.zero_xor]
  rw [← eval_of_lt hT (xtimes_lt hχ hp) (Nat.le_succ w), xtimes]
  split
  · rw [eval_xor hT, hzero, BitVec.xor_zero, hdouble]
  · exact hdouble

/-- **Residues are multiplied as maps are composed.** -/
theorem eval_mul (hq : q < 2 ^ w) :
    eval T w (mul χ w n p q) x = eval T n p (eval T w q x) := by
  induction n generalizing p q with
  | zero => exact eval_zero hT
  | succ n ih =>
    have hite : eval T w (if p % 2 = 1 then q else 0) x =
        if p % 2 = 1 then eval T w q x else 0#v := by
      split
      · rfl
      · exact eval_zero hT
    rw [mul, eval_xor hT, hite, ih (xtimes_lt hχ hq), eval_xtimes hT hχ hzero hq, eval_apply hT,
      eval]

theorem eval_pow (hw : 0 < w) (hp : p < 2 ^ w) (hk : k < 2 ^ n) :
    eval T w (pow χ w n p k) x = (eval T w p)^[k] x := by
  induction n generalizing p k x with
  | zero =>
    obtain rfl : k = 0 := Nat.lt_one_iff.mp hk
    exact eval_one hT hw
  | succ n ih =>
    have hhalf : k / 2 < 2 ^ n := by omega
    have hsquare : eval T w (mul χ w w p p) = (eval T w p)^[2] :=
      funext fun y => eval_mul hT hχ hzero hp
    have hrest : ∀ y, eval T w (pow χ w n (mul χ w w p p) (k / 2)) y =
        (eval T w p)^[2 * (k / 2)] y := by
      intro y
      rw [ih (mul_lt hχ hp) hhalf, hsquare, ← Function.iterate_mul]
    rw [pow]
    split
    next hodd =>
      have hk' : k = 2 * (k / 2) + 1 := by omega
      rw [eval_mul hT hχ hzero (pow_lt hχ hw (mul_lt hχ hp)), hrest,
        ← Function.iterate_succ_apply' (eval T w p)]
      exact congrArg (fun j => (eval T w p)^[j] x) hk'.symm
    next heven =>
      have hk' : k = 2 * (k / 2) := by omega
      rw [hrest]
      exact congrArg (fun j => (eval T w p)^[j] x) hk'.symm

end Residues

/-- A linear map that vanishes on the words with one bit vanishes. -/
theorem Linear.eq_zero (hT : Linear T) (hone : ∀ i < v, T (BitVec.twoPow v i) = 0#v)
    (x : BitVec v) : T x = 0#v := by
  -- by induction on the number of bits that may be set
  have hbits : ∀ n ≤ v, ∀ x : BitVec v, (∀ i, n ≤ i → x.getLsbD i = false) → T x = 0#v := by
    intro n
    induction n with
    | zero =>
      intro _ x hx
      obtain rfl : x = 0#v := by
        refine BitVec.eq_of_getLsbD_eq fun i _ => ?_
        rw [hx i (Nat.zero_le i), BitVec.getLsbD_zero]
      exact hT.zero
    | succ n ih =>
      intro hn x hx
      by_cases hbit : x.getLsbD n = true
      · have hrest : T (x ^^^ BitVec.twoPow v n) = 0#v := by
          refine ih (Nat.le_of_succ_le hn) _ fun i hi => ?_
          rw [BitVec.getLsbD_xor, BitVec.getLsbD_twoPow]
          rcases Nat.eq_or_lt_of_le hi with rfl | hlt
          · rw [hbit]
            simp [Nat.lt_of_succ_le hn]
          · rw [hx i hlt]
            simp [hlt.ne]
        rwa [hT, hone n (Nat.lt_of_succ_le hn), BitVec.xor_zero] at hrest
      · refine ih (Nat.le_of_succ_le hn) x fun i hi => ?_
        rcases Nat.eq_or_lt_of_le hi with rfl | hlt
        · exact Bool.not_eq_true _ ▸ hbit
        · exact hx i hlt
  exact hbits v le_rfl x fun i hi => BitVec.getLsbD_of_ge x i hi

/-! ### Periods -/

section Period

variable {n N : ℕ} (hT : Linear T) (hχ : HasDegree χ w) (hzero : ∀ x, eval T (w + 1) χ x = 0#v)
  (hw : 1 < w)

include hT hχ hzero hw

/-- The residue of `X ^ k` gives the iterates of `T`. -/
theorem eval_pow_two {k : ℕ} (hk : k < 2 ^ n) (x : BitVec v) :
    eval T w (pow χ w n 2 k) x = T^[k] x := by
  have htwo : 2 < 2 ^ w := by
    calc 2 = 2 ^ 1 := rfl
      _ < 2 ^ w := Nat.pow_lt_pow_right Nat.one_lt_two hw
  have hone : 1 < 2 ^ w := Nat.one_lt_two.trans htwo
  have hX : eval T w 2 = T := by
    funext y
    have hx : xtimes χ w 1 = 2 := if_neg (not_le.mpr htwo)
    rw [← hx, eval_xtimes hT hχ hzero hone, eval_one hT (Nat.zero_lt_of_lt hw)]
  rw [eval_pow hT hχ hzero (Nat.zero_lt_of_lt hw) htwo hk, hX]

/-- If `X ^ k - 1` has an inverse, only zero is repeated after `k` steps. -/
theorem eq_zero_of_iterate_eq {k u : ℕ} (hk : k < 2 ^ n)
    (hu : mul χ w w u (pow χ w n 2 k ^^^ 1) = 1) {x : BitVec v} (hx : T^[k] x = x) :
    x = 0#v := by
  have hw' : 0 < w := Nat.zero_lt_of_lt hw
  have hone : 1 < 2 ^ w := Nat.one_lt_two_pow hw'.ne'
  have htwo : 2 < 2 ^ w := by
    calc 2 = 2 ^ 1 := rfl
      _ < 2 ^ w := Nat.pow_lt_pow_right Nat.one_lt_two hw
  have hlt : pow χ w n 2 k ^^^ 1 < 2 ^ w := Nat.xor_lt_two_pow (pow_lt hχ hw' htwo) hone
  have hdiff : eval T w (pow χ w n 2 k ^^^ 1) x = 0#v := by
    rw [eval_xor hT, eval_pow_two hT hχ hzero hw hk, hx, eval_one hT hw', BitVec.xor_self]
  calc x = eval T w 1 x := (eval_one hT hw').symm
    _ = eval T w u (eval T w (pow χ w n 2 k ^^^ 1) x) := by
        rw [← eval_mul hT hχ hzero hlt, hu]
    _ = 0#v := by rw [hdiff, (linear_eval hT).zero]

/-- **The period.**  `X ^ N` is 1, and for every prime factor `p` of `N` the residue
`X ^ (N / p) - 1` has an inverse: then every word but zero has the period `N`. -/
theorem minimalPeriod_eq (hlt : N < 2 ^ n) (hpow : pow χ w n 2 N = 1)
    (hprime : ∀ p, p.Prime → p ∣ N → ∃ u, mul χ w w u (pow χ w n 2 (N / p) ^^^ 1) = 1)
    {x : BitVec v} (hx : x ≠ 0#v) : Function.minimalPeriod T x = N := by
  have hperiodic : Function.IsPeriodicPt T N x := by
    have heval := eval_pow_two hT hχ hzero hw hlt x
    rw [hpow, eval_one hT (Nat.zero_lt_of_lt hw)] at heval
    exact heval.symm
  obtain ⟨d, hd⟩ := hperiodic.minimalPeriod_dvd
  by_contra hne
  -- a proper divisor of `N` divides some `N / p`
  have hd1 : d ≠ 1 := by
    rintro rfl
    rw [Nat.mul_one] at hd
    exact hne hd.symm
  obtain ⟨p, hp, e, rfl⟩ := Nat.exists_prime_and_dvd hd1
  have hdvd : p ∣ N := ⟨Function.minimalPeriod T x * e, by rw [hd]; ring⟩
  have hquot : N / p = Function.minimalPeriod T x * e := by
    refine Nat.div_eq_of_eq_mul_right hp.pos ?_
    rw [hd]
    ring
  obtain ⟨u, hu⟩ := hprime p hp hdvd
  have hfixed : T^[N / p] x = x := by
    rw [hquot]
    exact (Function.isPeriodicPt_minimalPeriod T x).mul_const e
  exact hx (eq_zero_of_iterate_eq hT hχ hzero hw ((Nat.div_le_self N p).trans_lt hlt) hu hfixed)

end Period

/-- **A full period.**  If every word but zero has the period `2 ^ v - 1`, as many iterates in a
row are the words but zero, each once. -/
theorem window_perm (hT : Linear T)
    (hperiod : ∀ x, x ≠ 0#v → Function.minimalPeriod T x = 2 ^ v - 1) {x : BitVec v}
    (hx : x ≠ 0#v) :
    ((List.range (2 ^ v - 1)).map fun i => (T^[i] x).toNat).Perm (List.range' 1 (2 ^ v - 1)) := by
  have hiterate : ∀ i, T^[i] x ≠ 0#v := by
    intro i hzero
    by_cases hv : 2 ^ v - 1 = 0
    · -- there is no word but zero
      have hlt := x.isLt
      exact hx (BitVec.eq_of_toNat_eq (by rw [BitVec.toNat_zero]; omega))
    · have hper : Function.IsPeriodicPt T (2 ^ v - 1) x :=
        hperiod x hx ▸ Function.isPeriodicPt_minimalPeriod T x
      have hback : T^[(2 ^ v - 1) * i] x = x := hper.mul_const i
      have hle : i ≤ (2 ^ v - 1) * i := Nat.le_mul_of_pos_left i (Nat.pos_of_ne_zero hv)
      rw [← Nat.sub_add_cancel hle, Function.iterate_add_apply, hzero] at hback
      exact hx (hback.symm.trans (Function.iterate_fixed hT.zero _))
  have hnodup : ((List.range (2 ^ v - 1)).map fun i => (T^[i] x).toNat).Nodup := by
    refine List.Nodup.map_on (fun i hi j hj hij => ?_) List.nodup_range
    rw [List.mem_range, ← hperiod x hx] at hi hj
    exact Function.iterate_injOn_Iio_minimalPeriod hi hj (BitVec.eq_of_toNat_eq hij)
  have hsubset : ((List.range (2 ^ v - 1)).map fun i => (T^[i] x).toNat) ⊆
      List.range' 1 (2 ^ v - 1) := by
    intro m hm
    obtain ⟨i, -, rfl⟩ := List.mem_map.mp hm
    have hne : (T^[i] x).toNat ≠ 0 := fun he => hiterate i (BitVec.eq_of_toNat_eq he)
    have hlt := (T^[i] x).isLt
    rw [List.mem_range'_1]
    omega
  refine (List.subperm_of_subset hnodup hsubset).perm_of_length_le ?_
  rw [List.length_map, List.length_range, List.length_range']

end XorLinear
