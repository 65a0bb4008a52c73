/-
The period of `ant_server::fast_random`.

The three xor-shifts of a call are a linear map of the words of 32 bits.  Its characteristic
polynomial is primitive, so that a thread draws every number but zero before it draws one again.

* `minimalPeriod_update` — every state but zero repeats after 2³² - 1 calls, not earlier;
* `run_draws` — what the calls of one thread return, whatever other threads call in between;
* `draws_full_period` — **as many draws in a row are a permutation of the numbers from 1 to
  2³² - 1**, and the workers that they select are selected equally often, up to one.
-/
import AntServer.FastRandom
import AntServer.XorLinear

namespace FastRandom

variable {w : ℕ} {T : Type*}

/-! ### The map -/

theorem linear_update : XorLinear.Linear update := by
  have hleft : ∀ k, XorLinear.Linear fun x : BitVec 32 => x <<< k := fun k x y =>
    BitVec.shiftLeft_xor_distrib x y k
  have hright : ∀ k, XorLinear.Linear fun x : BitVec 32 => x >>> k := fun k x y =>
    BitVec.ushiftRight_xor_distrib x y k
  exact (hleft 5).xorSelf.comp ((hright 17).xorSelf.comp (hleft 13).xorSelf)

/-- The characteristic polynomial of `update`. -/
def updateChar : ℕ := 0x1003ec241

theorem hasDegree_updateChar : XorLinear.HasDegree updateChar 32 :=
  ⟨by decide, by decide⟩

theorem eval_updateChar (x : BitVec 32) : XorLinear.eval update (32 + 1) updateChar x = 0#32 := by
  refine (XorLinear.linear_eval linear_update).eq_zero ?_ x
  decide +kernel

/-- The numbers other than zero. -/
def period : ℕ := 2 ^ 32 - 1

theorem prime_of_dvd_period {p : ℕ} (hp : p.Prime) (hdvd : p ∣ period) :
    p ∈ [3, 5, 17, 257, 65537] := by
  have hfactors : period = 3 * 5 * 17 * 257 * 65537 := by decide
  have hprime : ∀ q ∈ [3, 5, 17, 257, 65537], Nat.Prime q := by
    intro q hq
    simp only [List.mem_cons, List.not_mem_nil, or_false] at hq
    rcases hq with rfl | rfl | rfl | rfl | rfl <;> norm_num
  have heq : ∀ q ∈ [3, 5, 17, 257, 65537], p ∣ q → p ∈ [3, 5, 17, 257, 65537] := fun q hq h =>
    (Nat.prime_dvd_prime_iff_eq hp (hprime q hq)).mp h ▸ hq
  rw [hfactors] at hdvd
  rcases hp.dvd_mul.mp hdvd with hdvd | h
  · rcases hp.dvd_mul.mp hdvd with hdvd | h
    · rcases hp.dvd_mul.mp hdvd with hdvd | h
      · rcases hp.dvd_mul.mp hdvd with h | h
        · exact heq 3 (by decide) h
        · exact heq 5 (by decide) h
      · exact heq 17 (by decide) h
    · exact heq 257 (by decide) h
  · exact heq 65537 (by decide) h

/-- The inverse of a residue, by Fermat's theorem. -/
def inverse (p : ℕ) : ℕ := XorLinear.pow updateChar 32 32 p (2 ^ 32 - 2)

theorem minimalPeriod_update {x : BitVec 32} (hx : x ≠ 0#32) :
    Function.minimalPeriod update x = period := by
  refine XorLinear.minimalPeriod_eq (n := 32) linear_update hasDegree_updateChar eval_updateChar
    (by decide) (by decide) (by decide +kernel) (fun p hp hdvd => ?_) hx
  have hinverse : ∀ q ∈ [3, 5, 17, 257, 65537],
      XorLinear.mul updateChar 32 32
        (inverse (XorLinear.pow updateChar 32 32 2 (period / q) ^^^ 1))
        (XorLinear.pow updateChar 32 32 2 (period / q) ^^^ 1) = 1 := by
    decide +kernel
  exact ⟨_, hinverse p (prime_of_dvd_period hp hdvd)⟩

theorem iterate_update_eq_iff {x : BitVec 32} (hx : x ≠ 0#32) {i j : ℕ} :
    update^[i] x = update^[j] x ↔ i ≡ j [MOD period] := by
  have hmod : ∀ n, n % period < Function.minimalPeriod update x := by
    intro n
    rw [minimalPeriod_update hx]
    exact Nat.mod_lt n (by decide)
  rw [← Function.iterate_mod_minimalPeriod_eq, ← Function.iterate_mod_minimalPeriod_eq (n := j),
    minimalPeriod_update hx]
  exact Function.iterate_eq_iterate_iff_of_lt_minimalPeriod (hmod i) (hmod j)

/-! ### The draws of a thread -/

variable [DecidableEq T]

/-- What the calls of `t` returned. -/
def State.drawsOf (s : State T) (t : T) : List (BitVec 32) :=
  (s.draws.filter fun d => d.1 = t).map Prod.snd

/-- The draws of `t` are the iterates of `update` from its seed, and its state is the last of
them. -/
structure Draws (address : T → BitVec w) (s : State T) (t : T) : Prop where
  draws : s.drawsOf t =
    (List.range (s.drawsOf t).length).map fun i => update^[i + 1] (seed (address t))
  state : (s.x t).getD (seed (address t)) = update^[(s.drawsOf t).length] (seed (address t))

variable {address : T → BitVec w} {s s' : State T} {t u : T}

theorem Draws.step (h : Draws address s t) (hs : step address s u = some s') :
    Draws address s' t := by
  obtain rfl := Option.some.inj hs
  by_cases hu : u = t
  · subst hu
    have hnew : State.drawsOf (⟨Function.update s.x u (some (fastRandom (address u) (s.x u))),
        s.draws ++ [(u, fastRandom (address u) (s.x u))]⟩ : State T) u =
        s.drawsOf u ++ [fastRandom (address u) (s.x u)] := by
      simp [State.drawsOf]
    have hr : fastRandom (address u) (s.x u) =
        update^[(s.drawsOf u).length + 1] (seed (address u)) := by
      rw [fastRandom, h.state, ← Function.iterate_succ_apply' update]
    refine ⟨?_, ?_⟩
    · rw [hnew, List.length_append, List.length_singleton, List.range_succ, List.map_append,
        ← h.draws, hr]
      rfl
    · rw [hnew, List.length_append, List.length_singleton]
      simp only [Function.update_self, Option.getD_some]
      exact hr
  · have hsame : State.drawsOf (⟨Function.update s.x u (some (fastRandom (address u) (s.x u))),
        s.draws ++ [(u, fastRandom (address u) (s.x u))]⟩ : State T) t = s.drawsOf t := by
      simp [State.drawsOf, hu]
    refine ⟨by rw [hsame]; exact h.draws, ?_⟩
    rw [hsame]
    simp only [Function.update_of_ne (Ne.symm hu)]
    exact h.state

/-- **Run lemma.** -/
theorem run_draws (address : T → BitVec w) {calls : List T}
    (hrun : StepSystem.run (step address) init calls = some s) (t : T) : Draws address s t :=
  StepSystem.run_invariant (I := fun s => Draws address s t) (fun _ _ _ h hs => h.step hs)
    ⟨rfl, rfl⟩ hrun

theorem Draws.getElem? (h : Draws address s t) {i : ℕ} (hi : i < (s.drawsOf t).length) :
    (s.drawsOf t)[i]? = some (update^[i + 1] (seed (address t))) := by
  rw [h.draws, List.getElem?_map, List.getElem?_range hi]
  rfl

/-- Some draws in a row. -/
theorem Draws.window (h : Draws address s t) {i n : ℕ} (hn : i + n ≤ (s.drawsOf t).length) :
    ((s.drawsOf t).drop i).take n =
      (List.range n).map fun j => update^[j] (update^[i + 1] (seed (address t))) := by
  refine List.ext_getElem? fun j => ?_
  rw [List.getElem?_take, List.getElem?_drop, List.getElem?_map]
  by_cases hj : j < n
  · rw [if_pos hj, h.getElem? (by omega), List.getElem?_range hj, Option.map_some,
      ← Function.iterate_add_apply, Nat.add_comm j, Nat.add_right_comm]
  · rw [if_neg hj, List.getElem?_eq_none (by rw [List.length_range]; omega), Option.map_none]

theorem run_drawsOf_length {calls : List T}
    (hrun : StepSystem.run (step address) init calls = some s) (t : T) :
    (s.drawsOf t).length = calls.count t := by
  refine StepSystem.run_induction (R := fun calls s => (s.drawsOf t).length = calls.count t) rfl
    (fun calls s u s' h hs => ?_) hrun
  obtain rfl := Option.some.inj hs
  rw [List.count_append, List.count_singleton, ← h]
  by_cases hu : u = t
  · simp [State.drawsOf, hu]
  · simp [State.drawsOf, hu]

omit [DecidableEq T] in
/-- Among the numbers from 1 to `N`, the remainders are equally frequent up to one. -/
theorem countP_mod (N : ℕ) {n k : ℕ} (hk : k < n) :
    N / n ≤ (List.range' 1 N).countP (fun m => m % n = k) ∧
      (List.range' 1 N).countP (fun m => m % n = k) ≤ N / n + 1 := by
  have hshift : ∀ m, (1 + m) % n = k ↔ m ≡ k + (n - 1) [MOD n] := by
    intro m
    have hback : k + (n - 1) + 1 = k + n := by omega
    rw [← Nat.ModEq.add_iff_right (c := 1) (d := 1) rfl, hback, Nat.ModEq, Nat.add_mod_right,
      Nat.mod_eq_of_lt hk, Nat.add_comm]
  have hcount : (List.range' 1 N).countP (fun m => m % n = k) =
      N / n + if (k + (n - 1)) % n < N % n then 1 else 0 := by
    rw [← Nat.count_modEq_card N (Nat.zero_lt_of_lt hk), List.range'_eq_map_range, List.countP_map]
    exact List.countP_congr fun m _ => by
      simp only [Function.comp_apply, decide_eq_true_eq]
      exact hshift m
  rw [hcount]
  split
  · omega
  · omega

/-- **The draws have the full period.**  On threads whose states have any aligned addresses, after
any calls: two draws of a thread are equal exactly if the number of calls between them is a
multiple of 2³² - 1; as many draws of a thread in a row are the numbers from 1 to 2³² - 1, in some
order; and with any number `n` of workers, `draw % n` selects each of them equally often among
these draws, up to one. -/
theorem draws_full_period (address : T → BitVec w) (hal : ∀ t, Aligned (address t))
    (calls : List T) (s : State T)
    (hrun : StepSystem.run (step address) init calls = some s) (t : T) :
    (s.drawsOf t).length = calls.count t ∧
    (∀ i j, i < calls.count t → j < calls.count t →
      ((s.drawsOf t)[i]? = (s.drawsOf t)[j]? ↔ i ≡ j [MOD period])) ∧
    ∀ i, i + period ≤ calls.count t →
      let window := (((s.drawsOf t).drop i).take period).map BitVec.toNat
      window.Perm (List.range' 1 period) ∧
      ∀ n k, k < n → period / n ≤ window.countP (fun r => r % n = k) ∧
        window.countP (fun r => r % n = k) ≤ period / n + 1 := by
  have hdraws := run_draws address hrun t
  have hlength := run_drawsOf_length hrun t
  have hseed := seed_ne_zero (hal t)
  refine ⟨hlength, fun i j hi hj => ?_, fun i hi => ?_⟩
  · rw [← hlength] at hi hj
    rw [hdraws.getElem? hi, hdraws.getElem? hj, Option.some.injEq,
      Function.iterate_succ_apply', Function.iterate_succ_apply',
      update_bijective.injective.eq_iff, iterate_update_eq_iff hseed]
  · rw [← hlength] at hi
    have hstart : update^[i + 1] (seed (address t)) ≠ 0#32 := by
      rw [Function.iterate_succ_apply']
      refine update_ne_zero fun hzero => ?_
      exact hseed ((update_bijective.injective.iterate i)
        (hzero.trans (Function.iterate_fixed update_zero i).symm))
    have hperm : ((List.range period).map fun j =>
        (update^[j] (update^[i + 1] (seed (address t)))).toNat).Perm (List.range' 1 period) :=
      XorLinear.window_perm linear_update (fun x hx => minimalPeriod_update hx) hstart
    have hwindow : (((s.drawsOf t).drop i).take period).map BitVec.toNat =
        (List.range period).map fun j =>
          (update^[j] (update^[i + 1] (seed (address t)))).toNat := by
      rw [hdraws.window hi, List.map_map]
      rfl
    dsimp only
    rw [hwindow]
    refine ⟨hperm, fun n k hk => ?_⟩
    rw [hperm.countP_eq]
    exact countP_mod period hk

theorem run_isSome (address : T → BitVec w) (s : State T) (calls : List T) :
    ∃ s', StepSystem.run (step address) s calls = some s' := by
  induction calls generalizing s with
  | nil => exact ⟨s, rfl⟩
  | cons t calls ih =>
    obtain ⟨s', hs'⟩ := ih ⟨Function.update s.x t (some (fastRandom (address t) (s.x t))),
      s.draws ++ [(t, fastRandom (address t) (s.x t))]⟩
    exact ⟨s', StepSystem.run_cons.mpr ⟨_, rfl, hs'⟩⟩

/-- One of two threads draws a full period, the other once. -/
theorem draws_full_period_two :
    ∃ s, StepSystem.run (step twoAddresses) init (true :: List.replicate period false) = some s ∧
      ((((s.drawsOf false).drop 0).take period).map BitVec.toNat).Perm (List.range' 1 period) := by
  obtain ⟨s, hrun⟩ := run_isSome twoAddresses init (true :: List.replicate period false)
  have hal : ∀ t, Aligned (twoAddresses t) := by
    intro t
    cases t <;> exact Nat.dvd_of_mod_eq_zero (by decide)
  have hcount : (true :: List.replicate period false).count false = period := by
    rw [List.count_cons_of_ne (by decide), List.count_replicate_self]
  obtain ⟨-, -, hwindow⟩ := draws_full_period twoAddresses hal _ s hrun false
  exact ⟨s, hrun, (hwindow 0 (by rw [hcount, Nat.zero_add])).1⟩

end FastRandom
