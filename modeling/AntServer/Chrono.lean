/-
Durations of `std::chrono` in 64-bit arithmetic.

A duration is a count of periods, which are rational numbers of seconds.
`duration_cast<milliseconds>` multiplies and divides the count by the terms of the reduced
ratio of the period to a millisecond, in the common type of the two counts and `intmax_t`:
a 64-bit type, signed or not.  The product wraps and the quotient is truncated.

* `durationCastMs` — the cast, with the four cases of the standard library;
* `durationCastMs_mul_le` — a cast is never too long, if it is positive at all;
* `durationCastMs_eq_iff` — **when a cast is exact**.
-/
import Mathlib

namespace Chrono

/-! ### 64-bit integers -/

/-- The value that a 64-bit signed integer holds. -/
def int64 (x : ℤ) : ℤ := x.bmod (2 ^ 64)

theorem int64_lower (x : ℤ) : -2 ^ 63 ≤ int64 x := by
  have h := Int.le_bmod (x := x) (m := 2 ^ 64) (by decide)
  rw [int64]
  omega

theorem int64_upper (x : ℤ) : int64 x < 2 ^ 63 := by
  have h := Int.bmod_lt (x := x) (m := 2 ^ 64) (by decide)
  rw [int64]
  omega

theorem int64_of_mem {x : ℤ} (hlo : -2 ^ 63 ≤ x) (hhi : x < 2 ^ 63) : int64 x = x :=
  Int.bmod_eq_of_le (by omega) (by omega)

/-- A number that is too large wraps to a smaller one. -/
theorem int64_le {x : ℤ} (h : -2 ^ 63 ≤ x) : int64 x ≤ x := by
  by_cases hhi : x < 2 ^ 63
  · rw [int64_of_mem h hhi]
  · have := int64_upper x
    omega

theorem int64_add_int64 (x y : ℤ) : int64 (x + int64 y) = int64 (x + y) :=
  Int.add_bmod_bmod

/-- The 64-bit types that a cast computes in. -/
inductive Rep
  | signed
  | unsigned
deriving DecidableEq, Repr

namespace Rep

def lo : Rep → ℤ
  | .signed => -2 ^ 63
  | .unsigned => 0

def hi : Rep → ℤ
  | .signed => 2 ^ 63
  | .unsigned => 2 ^ 64

def wrap : Rep → ℤ → ℤ
  | .signed, x => int64 x
  | .unsigned, x => x % 2 ^ 64

theorem wrap_of_mem {r : Rep} {x : ℤ} (hlo : r.lo ≤ x) (hhi : x < r.hi) : r.wrap x = x := by
  cases r with
  | signed => exact int64_of_mem hlo hhi
  | unsigned => exact Int.emod_eq_of_lt hlo hhi

theorem lo_le_wrap (r : Rep) (x : ℤ) : r.lo ≤ r.wrap x := by
  cases r with
  | signed => exact int64_lower x
  | unsigned => exact Int.emod_nonneg x (by decide)

theorem wrap_lt_hi (r : Rep) (x : ℤ) : r.wrap x < r.hi := by
  cases r with
  | signed => exact int64_upper x
  | unsigned => exact Int.emod_lt_of_pos x (by decide)

theorem wrap_le (r : Rep) {x : ℤ} (h : 0 ≤ x) : r.wrap x ≤ x := by
  cases r with
  | signed => exact int64_le (by omega)
  | unsigned =>
    show x % 2 ^ 64 ≤ x
    omega

theorem lower_lo (r : Rep) : -2 ^ 63 ≤ r.lo ∧ r.lo ≤ 0 := by
  cases r <;> decide

end Rep

/-! ### Durations -/

/-- `std::chrono::duration<Rep, std::ratio<num, den>>`. -/
structure Duration where
  rep : Rep
  num : ℕ
  den : ℕ
  count : ℤ
  num_pos : 0 < num
  den_pos : 0 < den
  lo_le : rep.lo ≤ count
  lt_hi : count < rep.hi
deriving DecidableEq, Repr

namespace Duration

variable (d : Duration)

/-- The terms of `ratio_divide<Period, milli>`, which is reduced. -/
def cfNum : ℤ := (d.num * 1000 / (d.num * 1000).gcd d.den : ℕ)

def cfDen : ℤ := (d.den / (d.num * 1000).gcd d.den : ℕ)

/-- `duration_cast<milliseconds>` before the conversion to the count of the result. -/
def castCount : ℤ :=
  if d.cfDen = 1 then
    if d.cfNum = 1 then d.count else d.rep.wrap (d.count * d.cfNum)
  else if d.cfNum = 1 then d.count.tdiv d.cfDen
  else (d.rep.wrap (d.count * d.cfNum)).tdiv d.cfDen

/-- `duration_cast<milliseconds>(d).count()`. -/
def durationCastMs : ℤ := int64 d.castCount

/-- The duration is at most `t` nanoseconds. -/
def ElapsedBy (t : ℤ) : Prop := d.count * d.num * 10 ^ 9 ≤ t * d.den

instance (t : ℤ) : Decidable (d.ElapsedBy t) := inferInstanceAs (Decidable (_ ≤ _))

theorem gcd_pos : 0 < (d.num * 1000).gcd d.den := Nat.gcd_pos_of_pos_right _ d.den_pos

theorem cfNum_pos : 0 < d.cfNum := by
  have hnum : 0 < d.num * 1000 := Nat.mul_pos d.num_pos (by decide)
  exact Int.natCast_pos.mpr (Nat.div_pos (Nat.gcd_le_left _ hnum) d.gcd_pos)

theorem cfDen_pos : 0 < d.cfDen :=
  Int.natCast_pos.mpr (Nat.div_pos (Nat.gcd_le_right _ d.den_pos) d.gcd_pos)

theorem cf_coprime : IsCoprime d.cfNum d.cfDen :=
  Nat.isCoprime_iff_coprime.mpr (Nat.coprime_div_gcd_div_gcd d.gcd_pos)

/-- The ratio of the period to a millisecond. -/
theorem cf_ratio :
    ∃ g : ℤ, 0 < g ∧ (d.num : ℤ) * 1000 = g * d.cfNum ∧ (d.den : ℤ) = g * d.cfDen := by
  refine ⟨((d.num * 1000).gcd d.den : ℕ), Int.natCast_pos.mpr d.gcd_pos, ?_, ?_⟩
  · rw [cfNum, ← Nat.cast_mul, Nat.mul_div_cancel' (Nat.gcd_dvd_left _ _)]
    push_cast
    rfl
  · rw [cfDen, ← Nat.cast_mul, Nat.mul_div_cancel' (Nat.gcd_dvd_right _ _)]

theorem elapsedBy_iff (t : ℤ) :
    d.ElapsedBy t ↔ d.count * d.cfNum * 10 ^ 6 ≤ t * d.cfDen := by
  obtain ⟨g, hg, hnum, hden⟩ := d.cf_ratio
  have hleft : d.count * d.num * 10 ^ 9 = g * (d.count * d.cfNum * 10 ^ 6) := by
    calc d.count * d.num * 10 ^ 9 = d.count * (d.num * 1000) * 10 ^ 6 := by ring
      _ = g * (d.count * d.cfNum * 10 ^ 6) := by rw [hnum]; ring
  have hright : t * d.den = g * (t * d.cfDen) := by rw [hden]; ring
  rw [ElapsedBy, hleft, hright]
  exact mul_le_mul_iff_right₀ hg

/-- The four cases are one formula. -/
theorem castCount_eq : d.castCount = (d.rep.wrap (d.count * d.cfNum)).tdiv d.cfDen := by
  have hwrap : d.rep.wrap d.count = d.count := Rep.wrap_of_mem d.lo_le d.lt_hi
  rw [castCount]
  split
  · rename_i hden
    rw [hden, Int.tdiv_one]
    split
    · rename_i hnum
      rw [hnum, mul_one, hwrap]
    · rfl
  · split
    · rename_i hnum
      rw [hnum, mul_one, hwrap]
    · rfl

/-- A positive cast is the floor of the wrapped product. -/
theorem castCount_of_pos (hpos : 0 < d.durationCastMs) :
    0 ≤ d.castCount ∧ d.castCount * d.cfDen ≤ d.rep.wrap (d.count * d.cfNum) := by
  have hden := d.cfDen_pos
  have hlo := (Rep.lower_lo d.rep).1.trans (Rep.lo_le_wrap d.rep (d.count * d.cfNum))
  have hcast := d.castCount_eq
  generalize d.rep.wrap (d.count * d.cfNum) = w at hlo hcast ⊢
  rcases le_or_gt 0 w with hw | hw
  · rw [hcast]
    refine ⟨Int.tdiv_nonneg hw hden.le, ?_⟩
    rw [Int.tdiv_eq_ediv_of_nonneg hw]
    exact Int.ediv_mul_le w hden.ne'
  · -- a negative product gives a negative count, which is in range
    have hle : d.castCount ≤ 0 := by
      have hneg := Int.tdiv_nonneg (neg_nonneg.mpr hw.le) hden.le
      rw [Int.neg_tdiv] at hneg
      omega
    have hge : w ≤ d.castCount := by
      rw [hcast]
      have habs := Int.natAbs_tdiv_le_natAbs w d.cfDen
      omega
    have hsame : d.durationCastMs = d.castCount := int64_of_mem (by omega) (by omega)
    omega

/-- **A cast that is positive is not longer than the duration.** -/
theorem durationCastMs_mul_le (hd : 0 < d.count) (hpos : 0 < d.durationCastMs) :
    d.durationCastMs * d.cfDen ≤ d.count * d.cfNum := by
  obtain ⟨hnonneg, hle⟩ := d.castCount_of_pos hpos
  have hproduct : 0 ≤ d.count * d.cfNum := (Int.mul_pos hd d.cfNum_pos).le
  calc d.durationCastMs * d.cfDen ≤ d.castCount * d.cfDen :=
        Int.mul_le_mul_of_nonneg_right (int64_le (by omega)) d.cfDen_pos.le
    _ ≤ d.rep.wrap (d.count * d.cfNum) := hle
    _ ≤ d.count * d.cfNum := Rep.wrap_le d.rep hproduct

/-- The duration is a whole number of milliseconds, and neither the product nor the result of
the cast overflows. -/
structure Exact : Prop where
  whole : d.cfDen ∣ d.count
  product : d.count * d.cfNum < d.rep.hi
  result : d.count * d.cfNum / d.cfDen < 2 ^ 63

/-- **A cast is exact if the duration is a whole number of milliseconds and nothing
overflows, and only then.** -/
theorem durationCastMs_eq_iff (hd : 0 < d.count) :
    0 < d.durationCastMs ∧ d.durationCastMs * d.cfDen = d.count * d.cfNum ↔ d.Exact := by
  have hnum := d.cfNum_pos
  have hden := d.cfDen_pos
  have hproduct : 0 < d.count * d.cfNum := Int.mul_pos hd hnum
  constructor
  · rintro ⟨hpos, heq⟩
    obtain ⟨hnonneg, hle⟩ := d.castCount_of_pos hpos
    refine ⟨?_, ?_, ?_⟩
    · have hdvd : d.cfDen ∣ d.count * d.cfNum := ⟨d.durationCastMs, by rw [← heq, mul_comm]⟩
      exact d.cf_coprime.symm.dvd_of_dvd_mul_right hdvd
    · have hcast : d.durationCastMs * d.cfDen ≤ d.castCount * d.cfDen :=
        Int.mul_le_mul_of_nonneg_right (int64_le (by omega)) hden.le
      have := Rep.wrap_lt_hi d.rep (d.count * d.cfNum)
      omega
    · rw [← heq, Int.mul_ediv_cancel _ hden.ne']
      exact int64_upper _
  · intro h
    obtain ⟨q, hq⟩ : d.cfDen ∣ d.count * d.cfNum := Dvd.dvd.mul_right h.whole d.cfNum
    have hlo := (Rep.lower_lo d.rep).2
    have hresult : q < 2 ^ 63 := by
      have := h.result
      rwa [hq, Int.mul_ediv_cancel_left _ hden.ne'] at this
    have hqpos : 0 < q := by
      rw [hq] at hproduct
      exact pos_of_mul_pos_right hproduct hden.le
    have hcast : d.durationCastMs = q := by
      rw [durationCastMs, castCount_eq, Rep.wrap_of_mem (by omega) h.product, hq,
        Int.mul_tdiv_cancel_left _ hden.ne']
      exact int64_of_mem (by omega) hresult
    rw [hcast, hq]
    exact ⟨hqpos, mul_comm _ _⟩

end Duration

end Chrono
