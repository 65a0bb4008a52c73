/-
What `TakeHalf` copies.

`TakeHalf` first advances `top_` over the positions it claims and copies the slots
afterwards, one by one.  For the owner's fullness check the slots are free from
the first of these steps on, so `Push` may come around the ring and store into a
slot that is still to be copied.  Here the owner only pushes and the thieves only
call `TakeHalf`; a position is then pushed once, and `accepted` lists the values
by position.

* `Uncopied` — the positions a thief has claimed and not yet copied;
* `step_copies`, `step_claimed` — what a step keeps as long as `Push` stores into
  no slot of an uncopied position: the slots of the live positions hold what was
  pushed, and every position below `top_` is claimed by one call;
* `batches_copied` — the batches of every such run;
* `wrapped_push_overwrites` — the other runs: a batch with a wrong task.
-/
import AntServer.Places
import AntServer.SpmcQueue

namespace SpmcQueue

variable {T ι : Type*}

/-! ### Claims -/

/-- The `n` positions from `t` on. -/
def span (t : ℤ) (n : ℕ) : List ℤ := (List.range n).map fun k : ℕ => t + k

theorem mem_span {t p : ℤ} {n : ℕ} : p ∈ span t n ↔ t ≤ p ∧ p < t + n := by
  rw [span, List.mem_map]
  constructor
  · rintro ⟨k, hk, rfl⟩
    rw [List.mem_range] at hk
    omega
  · rintro ⟨h₁, h₂⟩
    refine ⟨(p - t).toNat, ?_, ?_⟩
    · rw [List.mem_range]
      omega
    · omega

theorem nodup_span (t : ℤ) (n : ℕ) : (span t n).Nodup := by
  refine List.nodup_range.map fun a b hab => ?_
  simpa using hab

/-- The positions claimed by the call in progress. -/
def ThiefPc.claim : ThiefPc T → List ℤ
  | .takeCopy t n _ => span t n
  | _ => []

/-- The position `p` is claimed and its slot still to be copied. -/
def Uncopied : ThiefPc T → ℤ → Prop
  | .takeCopy t n out, p => t + out.length ≤ p ∧ p < t + n
  | _, _ => False

instance (pc : ThiefPc T) (p : ℤ) : Decidable (Uncopied pc p) := by
  cases pc <;> unfold Uncopied <;> infer_instance

/-- The positions of a returned batch: `top_` was moved from `x.2.1` by as many. -/
def positions (x : ι × ℤ × List (Option T)) : List ℤ := span x.2.1 x.2.2.length

/-- The claimed positions, by the call in progress or (`none`) the calls that
have returned. -/
def State.claims (s : State T ι) : Option ι → List ℤ
  | none => s.batches.flatMap positions
  | some i => (s.thief i).claim

/-- Every position below `top_` is claimed, by one call. -/
structure Claimed (s : State T ι) : Prop where
  separate : Separate s.claims
  within : ∀ p, Within s.claims p ↔ 0 ≤ p ∧ p < s.top

/-! ### Copies -/

/-- `out` is what `Push` stored for the positions from `t` on. -/
def Copied (accepted : List (Option T)) (t : ℤ) (out : List (Option T)) : Prop :=
  ∀ k, k < out.length → accepted[t.toNat + k]? = out[k]?

instance [DecidableEq T] (accepted : List (Option T)) (t : ℤ) (out : List (Option T)) :
    Decidable (Copied accepted t out) :=
  inferInstanceAs (Decidable (∀ k, k < out.length → _))

theorem getElem?_append_of_some {xs : List (Option T)} {k : ℕ} {x : Option T}
    (h : xs[k]? = some x) (ys : List (Option T)) : (xs ++ ys)[k]? = some x := by
  obtain ⟨hk, -⟩ := List.getElem?_eq_some_iff.mp h
  rw [List.getElem?_append_left hk, h]

/-- Later pushes do not change what was pushed. -/
theorem Copied.push {accepted out : List (Option T)} {t : ℤ} (h : Copied accepted t out)
    (node : Option T) : Copied (accepted ++ [node]) t out := by
  intro k hk
  have hout : out[k]? = some out[k] := List.getElem?_eq_getElem hk
  rw [hout]
  exact getElem?_append_of_some ((h k hk).trans hout) [node]

/-- One more slot is copied. -/
theorem Copied.copy {accepted out : List (Option T)} {t : ℤ} {x : Option T}
    (h : Copied accepted t out) (ht : 0 ≤ t)
    (hx : accepted[(t + out.length).toNat]? = some x) : Copied accepted t (out ++ [x]) := by
  intro k hk
  rw [List.length_append, List.length_singleton] at hk
  by_cases hlt : k < out.length
  · rw [List.getElem?_append_left hlt]
    exact h k hlt
  · obtain rfl : k = out.length := by omega
    rw [List.getElem?_concat_length, ← hx]
    congr 1
    omega

/-- The slot of `p` is still needed: unclaimed, or claimed and not copied. -/
def Live (s : State T ι) (p : ℤ) : Prop :=
  (s.top ≤ p ∧ p < s.bottom) ∨ ∃ i, Uncopied (s.thief i) p

/-- The owner inside `Push`. -/
def PushOk (c : Capacity) (s : State T ι) : Prop :=
  match s.owner with
  | .idle => True
  | .pushBottom _ b => b = s.bottom
  | .pushRoom _ b => b = s.bottom ∧ b - s.top < c.kMaxSize
  | .pushWritten node b =>
    b = s.bottom ∧ s.buffer (c.slot b) = node ∧ ∀ p, Live s p → b - p < c.kMaxSize
  | _ => False

/-- A thief inside `TakeHalf`. -/
def TakeOk (bottom : ℤ) (accepted : List (Option T)) : ThiefPc T → Prop
  | .idle => True
  | .takeBottom b => b ≤ bottom
  | .takeTop t n => 0 < n ∧ t + n ≤ bottom
  | .takeCopy t n out => 0 ≤ t ∧ out.length < n ∧ Copied accepted t out
  | _ => False

/-- What holds between the steps: the slots of the live positions, which lie
within one turn of the ring, hold the values that were pushed. -/
structure Copies (c : Capacity) (s : State T ι) : Prop where
  length : s.bottom = s.accepted.length
  top_nonneg : 0 ≤ s.top
  top_le : s.top ≤ s.bottom
  size_le : s.bottom - s.top ≤ c.kMaxSize
  owner : PushOk c s
  thief : ∀ i, TakeOk s.bottom s.accepted (s.thief i)
  stored : ∀ p, Live s p → 0 ≤ p ∧ p < s.bottom ∧ s.bottom - p ≤ c.kMaxSize ∧
    s.accepted[p.toNat]? = some (s.buffer (c.slot p))
  batches : ∀ x ∈ s.batches, 0 ≤ x.2.1 ∧ x.2.2 ≠ [] ∧ Copied s.accepted x.2.1 x.2.2

theorem copies_init (c : Capacity) : Copies c (init T ι) where
  length := rfl
  top_nonneg := le_rfl
  top_le := le_rfl
  size_le := by
    show (0 : ℤ) - 0 ≤ c.kMaxSize
    omega
  owner := trivial
  thief := fun _ => trivial
  stored := by
    rintro p (⟨h₁, h₂⟩ | ⟨i, hi⟩)
    · exact absurd (h₁.trans_lt h₂) (lt_irrefl 0)
    · exact hi.elim
  batches := fun x hx => absurd hx List.not_mem_nil

/-- Neither operation but `Push` and `TakeHalf`. -/
def Label.PushOrTake : Label T ι → Prop
  | .tryPop => False
  | .steal _ => False
  | _ => True

instance (l : Label T ι) : Decidable l.PushOrTake := by
  cases l <;> unfold Label.PushOrTake <;> infer_instance

/-- **The condition**: when `Push` stores for position `b`, no thief has still to
copy the position that used the slot one turn of the ring before. -/
def StoresFree (c : Capacity) (s : State T ι) : Label T ι → Prop
  | .owner =>
    match s.owner with
    | .pushRoom _ b => ∀ i, ¬ Uncopied (s.thief i) (b - c.kMaxSize)
    | _ => True
  | _ => True

instance [Fintype ι] (c : Capacity) (s : State T ι) (l : Label T ι) :
    Decidable (StoresFree c s l) := by
  unfold StoresFree
  split
  · split <;> infer_instance
  · infer_instance

/-! ### The owner's steps -/

section Owner

variable {c : Capacity} {s s' : State T ι}

/-- A step that moves the owner inside `Push` and changes nothing else. -/
theorem Copies.goto (h : Copies c s) {pc : OwnerPc T} (hpc : PushOk c { s with owner := pc }) :
    Copies c { s with owner := pc } :=
  ⟨h.length, h.top_nonneg, h.top_le, h.size_le, hpc, h.thief, h.stored, h.batches⟩

/-- The store of `Push`: the slots of the live positions are other slots. -/
theorem Copies.store (h : Copies c s) {node : Option T} {b : ℤ}
    (howner : s.owner = .pushRoom node b)
    (hfree : ∀ i, ¬ Uncopied (s.thief i) (b - c.kMaxSize)) :
    Copies c { s with
      buffer := Function.update s.buffer (c.slot b) node, owner := .pushWritten node b } := by
  have hpush := h.owner
  rw [PushOk, howner] at hpush
  obtain ⟨hb, hroom⟩ := hpush
  have hnear : ∀ p, Live s p → b - p < c.kMaxSize := by
    rintro p (⟨htop, -⟩ | ⟨i, hi⟩)
    · omega
    · obtain ⟨-, -, hle, -⟩ := h.stored p (Or.inr ⟨i, hi⟩)
      have hne : p ≠ b - c.kMaxSize := fun he => hfree i (he ▸ hi)
      omega
  refine ⟨h.length, h.top_nonneg, h.top_le, h.size_le, ?_, h.thief, fun p hp => ?_, h.batches⟩
  · exact ⟨hb, Function.update_self _ _ _, hnear⟩
  · obtain ⟨hp0, hlt, hle, hval⟩ := h.stored p hp
    have hslot : c.slot p ≠ c.slot b := c.slot_ne hp0 (by omega) (hnear p hp)
    refine ⟨hp0, hlt, hle, ?_⟩
    show s.accepted[p.toNat]? = some (Function.update s.buffer (c.slot b) node (c.slot p))
    rw [Function.update_of_ne hslot, hval]

theorem TakeOk.push {bottom : ℤ} {accepted : List (Option T)} {pc : ThiefPc T}
    (h : TakeOk bottom accepted pc) (node : Option T) :
    TakeOk (bottom + 1) (accepted ++ [node]) pc := by
  cases pc with
  | idle => trivial
  | takeBottom b =>
    have hb : b ≤ bottom := h
    show b ≤ bottom + 1
    omega
  | takeTop t n =>
    obtain ⟨hn, hle⟩ := h
    exact ⟨hn, by omega⟩
  | takeCopy t n out => exact ⟨h.1, h.2.1, h.2.2.push node⟩
  | stealTop t => exact h.elim
  | stealBottom t => exact h.elim
  | stealRead t task => exact h.elim

/-- `Push` publishes the new position. -/
theorem Copies.publish (h : Copies c s) {node : Option T} {b : ℤ}
    (howner : s.owner = .pushWritten node b) (stamp : ℤ → ℕ) :
    Copies c { s with
      bottom := b + 1, owner := .idle, accepted := s.accepted ++ [node], stamp := stamp } := by
  have hpush := h.owner
  rw [PushOk, howner] at hpush
  obtain ⟨rfl, hnode, hnear⟩ := hpush
  have hlen := h.length
  have htop := h.top_nonneg
  have hle := h.top_le
  have hsize : s.bottom + 1 - s.top ≤ c.kMaxSize := by
    by_cases hempty : s.top = s.bottom
    · have hpos : 0 < c.kMaxSize := by
        obtain ⟨k, hk⟩ := c.pow2
        rw [hk]
        exact Nat.two_pow_pos k
      omega
    · have := hnear s.top (Or.inl ⟨le_rfl, by omega⟩)
      omega
  refine ⟨?_, htop, ?_, hsize, trivial, fun i => (h.thief i).push node, ?_, ?_⟩
  · rw [List.length_append, List.length_singleton, hlen]
    rfl
  · show s.top ≤ s.bottom + 1
    omega
  · intro p hp
    by_cases hnew : p = s.bottom
    · subst hnew
      have hone : s.bottom + 1 - s.bottom ≤ c.kMaxSize := by omega
      refine ⟨by omega, lt_add_one _, hone, ?_⟩
      show (s.accepted ++ [node])[s.bottom.toNat]? = some (s.buffer (c.slot s.bottom))
      have hidx : s.bottom.toNat = s.accepted.length := by omega
      rw [hnode, hidx, List.getElem?_concat_length]
    · have hlive : Live s p := by
        rcases hp with ⟨h₁, h₂⟩ | hp
        · have h₂' : p < s.bottom + 1 := h₂
          exact Or.inl ⟨h₁, by omega⟩
        · exact Or.inr hp
      obtain ⟨hp0, hlt, -, hval⟩ := h.stored p hlive
      have := hnear p hlive
      refine ⟨hp0, hlt.trans (lt_add_one _), ?_, getElem?_append_of_some hval [node]⟩
      show s.bottom + 1 - p ≤ c.kMaxSize
      omega
  · intro x hx
    obtain ⟨h0, hne, hcop⟩ := h.batches x hx
    exact ⟨h0, hne, hcop.push node⟩

theorem ownerStep_copies (h : Copies c s) (hfree : StoresFree c s .owner)
    (hs : ownerStep c s = some s') : Copies c s' := by
  have hpush := h.owner
  rw [PushOk] at hpush
  rw [StoresFree] at hfree
  rw [ownerStep] at hs
  cases howner : s.owner with
  | idle => simp [howner] at hs
  | pushBottom node b =>
    simp only [howner] at hs hpush
    by_cases hroom : b - s.top < c.kMaxSize
    · rw [if_pos hroom] at hs
      obtain rfl := Option.some.inj hs
      exact h.goto ⟨hpush, hroom⟩
    · rw [if_neg hroom] at hs
      obtain rfl := Option.some.inj hs
      exact h.goto trivial
  | pushRoom node b =>
    simp only [howner] at hs hfree
    obtain rfl := Option.some.inj hs
    exact h.store howner hfree
  | pushWritten node b =>
    simp only [howner] at hs
    obtain rfl := Option.some.inj hs
    exact h.publish howner _
  | _ =>
    rw [howner] at hpush
    exact hpush.elim

end Owner

/-! ### The thieves' steps -/

section Thieves

variable {c : Capacity} {s s' : State T ι} {i : ι}

/-- A step of a thief: `top_` may grow, nothing becomes live. -/
theorem Copies.take (h : Copies c s) (hbuffer : s'.buffer = s.buffer)
    (hbottom : s'.bottom = s.bottom) (howner : s'.owner = s.owner)
    (haccepted : s'.accepted = s.accepted) (htop : s.top ≤ s'.top) (htop' : s'.top ≤ s.bottom)
    (hlive : ∀ p, Live s' p → Live s p)
    (hthief : ∀ j, TakeOk s.bottom s.accepted (s'.thief j))
    (hbatches : ∀ x ∈ s'.batches, 0 ≤ x.2.1 ∧ x.2.2 ≠ [] ∧ Copied s.accepted x.2.1 x.2.2) :
    Copies c s' := by
  have hsize := h.size_le
  have h0 := h.top_nonneg
  refine ⟨?_, by omega, by omega, by omega, ?_, ?_, ?_, ?_⟩
  · rw [hbottom, haccepted, h.length]
  · have hpush := h.owner
    rw [PushOk] at hpush ⊢
    rw [howner, hbottom, hbuffer]
    cases hpc : s.owner with
    | pushRoom node b =>
      rw [hpc] at hpush
      obtain ⟨hb, hroom⟩ := hpush
      exact ⟨hb, by omega⟩
    | pushWritten node b =>
      rw [hpc] at hpush
      obtain ⟨hb, hnode, hnear⟩ := hpush
      exact ⟨hb, hnode, fun p hp => hnear p (hlive p hp)⟩
    | _ =>
      rw [hpc] at hpush
      exact hpush
  · rw [hbottom, haccepted]
    exact hthief
  · intro p hp
    rw [hbottom, haccepted, hbuffer]
    exact h.stored p (hlive p hp)
  · rw [haccepted]
    exact hbatches

/-- The next slot is copied. -/
theorem Copies.copied (h : Copies c s) {t : ℤ} {n : ℕ} {out : List (Option T)}
    (hpc : s.thief i = .takeCopy t n out) :
    0 ≤ t ∧ out.length < n ∧
      Copied s.accepted t (out ++ [s.buffer (c.slot (t + out.length))]) := by
  have hok := h.thief i
  rw [hpc] at hok
  obtain ⟨ht, hlt, hcop⟩ := hok
  have hun : Uncopied (s.thief i) (t + out.length) := by
    rw [hpc]
    exact ⟨le_rfl, by omega⟩
  obtain ⟨-, -, -, hval⟩ := h.stored _ (Or.inr ⟨i, hun⟩)
  exact ⟨ht, hlt, hcop.copy ht hval⟩

variable [DecidableEq ι]

theorem takeOk_setThief (h : ∀ j, TakeOk s.bottom s.accepted (s.thief j)) {pc : ThiefPc T}
    (hpc : TakeOk s.bottom s.accepted pc) (j : ι) :
    TakeOk s.bottom s.accepted ((s.setThief i pc).thief j) := by
  show TakeOk s.bottom s.accepted (Function.update s.thief i pc j)
  by_cases hj : j = i
  · subst hj
    rwa [Function.update_self]
  · rw [Function.update_of_ne hj]
    exact h j

/-- The uncopied positions after a step of thief `i`. -/
theorem uncopied_setThief {pc : ThiefPc T} {p : ℤ} {j : ι}
    (h : Uncopied ((s.setThief i pc).thief j) p) : Uncopied pc p ∨ Uncopied (s.thief j) p := by
  by_cases hj : j = i
  · subst hj
    have h' : Uncopied (Function.update s.thief j pc j) p := h
    rw [Function.update_self] at h'
    exact Or.inl h'
  · have h' : Uncopied (Function.update s.thief i pc j) p := h
    rw [Function.update_of_ne hj] at h'
    exact Or.inr h'

/-- A step that moves thief `i` and makes nothing uncopied. -/
theorem Copies.setThief (h : Copies c s) {pc : ThiefPc T} (hpc : TakeOk s.bottom s.accepted pc)
    (hun : ∀ p, Uncopied pc p → Uncopied (s.thief i) p) : Copies c (s.setThief i pc) := by
  refine h.take rfl rfl rfl rfl le_rfl h.top_le ?_ (takeOk_setThief h.thief hpc) h.batches
  rintro p (hwin | ⟨j, hj⟩)
  · exact Or.inl hwin
  · rcases uncopied_setThief hj with hj | hj
    · exact Or.inr ⟨i, hun p hj⟩
    · exact Or.inr ⟨j, hj⟩

/-- The compare-exchange of `TakeHalf`: the claimed positions were unclaimed. -/
theorem Copies.claim (h : Copies c s) {n : ℕ} (hok : TakeOk s.bottom s.accepted (.takeTop s.top n))
    (handed : List (ℤ × ℕ)) :
    Copies c { s.setThief i (.takeCopy s.top n []) with top := s.top + n, handed := handed } := by
  obtain ⟨hn, hle⟩ := hok
  have hpc : TakeOk s.bottom s.accepted (.takeCopy s.top n []) :=
    ⟨h.top_nonneg, hn, fun k hk => absurd hk (Nat.not_lt_zero k)⟩
  have hgrow : s.top ≤ s.top + n := by omega
  refine h.take rfl rfl rfl rfl hgrow hle ?_ (takeOk_setThief h.thief hpc) h.batches
  rintro p (⟨h₁, h₂⟩ | ⟨j, hj⟩)
  · exact Or.inl ⟨hgrow.trans h₁, h₂⟩
  · rcases uncopied_setThief hj with ⟨h₁, h₂⟩ | hj
    · rw [List.length_nil] at h₁
      exact Or.inl ⟨by omega, by omega⟩
    · exact Or.inr ⟨j, hj⟩

theorem thiefStep_copies {spurious : Bool} (h : Copies c s)
    (hs : thiefStep c s i spurious = some s') : Copies c s' := by
  have hok := h.thief i
  rw [thiefStep] at hs
  cases hpc : s.thief i with
  | idle => simp [hpc] at hs
  | takeBottom b =>
    rw [hpc] at hok
    have hb : b ≤ s.bottom := hok
    simp only [hpc] at hs
    by_cases hsize : b - s.top ≤ 0
    · rw [if_pos hsize] at hs
      obtain rfl := Option.some.inj hs
      exact h.setThief trivial fun p hp => hp.elim
    · rw [if_neg hsize] at hs
      obtain rfl := Option.some.inj hs
      have hpos : 0 < b - s.top := by omega
      have hle := numToTake_le hpos
      exact h.setThief ⟨numToTake_pos hpos, by omega⟩ fun p hp => hp.elim
  | takeTop t n =>
    rw [hpc] at hok
    simp only [hpc] at hs
    by_cases htop : s.top = t
    · subst htop
      rw [if_pos rfl] at hs
      obtain rfl := Option.some.inj hs
      exact h.claim hok _
    · rw [if_neg htop] at hs
      obtain rfl := Option.some.inj hs
      exact h.setThief trivial fun p hp => hp.elim
  | takeCopy t n out =>
    obtain ⟨ht, -, hcop⟩ := h.copied hpc
    simp only [hpc] at hs
    by_cases hmore : (out ++ [s.buffer (c.slot (t + out.length))]).length < n
    · rw [if_pos hmore] at hs
      obtain rfl := Option.some.inj hs
      refine h.setThief ⟨ht, hmore, hcop⟩ fun p hp => ?_
      rw [hpc]
      obtain ⟨h₁, h₂⟩ := hp
      rw [List.length_append, List.length_singleton] at h₁
      exact ⟨by omega, h₂⟩
    · rw [if_neg hmore] at hs
      obtain rfl := Option.some.inj hs
      have hidle : Copies c (s.setThief i .idle) := h.setThief trivial fun p hp => hp.elim
      refine ⟨hidle.length, hidle.top_nonneg, hidle.top_le, hidle.size_le, hidle.owner,
        hidle.thief, hidle.stored, fun x hx => ?_⟩
      rcases List.mem_append.mp hx with hx | hx
      · exact h.batches x hx
      · rw [List.mem_singleton] at hx
        subst hx
        exact ⟨ht, List.concat_ne_nil _ _, hcop⟩
  | _ =>
    rw [hpc] at hok
    exact hok.elim

/-- **What a step keeps**, as long as `Push` stores into no uncopied slot. -/
theorem step_copies {l : Label T ι} (h : Copies c s) (honly : l.PushOrTake)
    (hfree : StoresFree c s l) (hs : step c s l = some s') : Copies c s' := by
  cases l with
  | tryPop => exact honly.elim
  | steal i => exact honly.elim
  | owner => exact ownerStep_copies h hfree hs
  | thief i spurious => exact thiefStep_copies h hs
  | push node =>
    rw [step] at hs
    split at hs
    · obtain rfl := Option.some.inj hs
      exact h.goto rfl
    · cases hs
  | takeHalf i =>
    rw [step] at hs
    split at hs
    · obtain rfl := Option.some.inj hs
      exact h.setThief le_rfl fun p hp => hp.elim
    · cases hs

end Thieves

/-! ### The claims -/

section Claims

variable {c : Capacity} {s s' : State T ι} {i : ι}

theorem claimed_init : Claimed (init T ι) := by
  have hnil : (init T ι).claims = fun _ => [] := by
    funext q
    cases q <;> rfl
  refine ⟨hnil ▸ Separate.nil, fun p => ?_⟩
  rw [hnil]
  constructor
  · rintro ⟨q, hq⟩
    exact absurd hq List.not_mem_nil
  · rintro ⟨h₁, h₂⟩
    exact absurd (h₁.trans_lt h₂) (lt_irrefl 0)

/-- A step that changes no claim. -/
theorem Claimed.congr (h : Claimed s) (hclaim : ∀ j, (s'.thief j).claim = (s.thief j).claim)
    (hbatches : s'.batches = s.batches) (htop : s'.top = s.top) : Claimed s' := by
  have hclaims : s'.claims = s.claims := by
    funext q
    cases q with
    | none =>
      show s'.batches.flatMap positions = s.batches.flatMap positions
      rw [hbatches]
    | some j => exact hclaim j
  refine ⟨hclaims ▸ h.separate, fun p => ?_⟩
  rw [hclaims, htop]
  exact h.within p

variable [DecidableEq ι]

/-- A thief that has claimed nothing goes on or gives up. -/
theorem Claimed.setThief (h : Claimed s) {pc : ThiefPc T} (hclaim : pc.claim = (s.thief i).claim) :
    Claimed (s.setThief i pc) := by
  refine h.congr (fun j => ?_) rfl rfl
  show (Function.update s.thief i pc j).claim = _
  by_cases hj : j = i
  · subst hj
    rw [Function.update_self, hclaim]
  · rw [Function.update_of_ne hj]

/-- The claims after a step of thief `i`. -/
theorem claims_setThief (pc : ThiefPc T) :
    (s.setThief i pc).claims = Function.update s.claims (some i) pc.claim := by
  funext q
  cases q with
  | none => rw [Function.update_of_ne (Option.some_ne_none i).symm]; rfl
  | some j =>
    show (Function.update s.thief i pc j).claim = _
    by_cases hj : j = i
    · subst hj
      rw [Function.update_self, Function.update_self]
    · rw [Function.update_of_ne hj, Function.update_of_ne (fun he => hj (Option.some.inj he))]
      rfl

/-- The compare-exchange of `TakeHalf` claims positions that nobody has claimed. -/
theorem Claimed.claim (h : Claimed s) (htop : 0 ≤ s.top) {n : ℕ}
    (hidle : (s.thief i).claim = []) (handed : List (ℤ × ℕ)) :
    Claimed { s.setThief i (.takeCopy s.top n []) with top := s.top + n, handed := handed } := by
  have htr : Transfer Set.univ (span s.top n) [] s.claims
      (s.setThief i (.takeCopy s.top n [])).claims := by
    rw [claims_setThief]
    refine Transfer.one (Set.mem_univ _) ?_
    show ([] ++ span s.top n).Perm (span s.top n ++ (s.thief i).claim)
    rw [hidle, List.append_nil, List.nil_append]
  refine ⟨htr.separate h.separate (nodup_span _ _) fun p hp hin => ?_, fun p => ?_⟩
  · have hlt := ((h.within p).mp hin).2
    have hle := (mem_span.mp hp).1
    omega
  · show Within (s.setThief i (.takeCopy s.top n [])).claims p ↔ 0 ≤ p ∧ p < s.top + n
    rw [htr.within, h.within, mem_span]
    omega

/-- A call that returns hands its claim over to the batches. -/
theorem Claimed.return (h : Claimed s) {t : ℤ} {n : ℕ} {out out' : List (Option T)}
    (hpc : s.thief i = .takeCopy t n out) (hlen : out'.length = n) :
    Claimed { s.setThief i .idle with batches := s.batches ++ [(i, t, out')] } := by
  have hclaims : ({ s.setThief i .idle with batches := s.batches ++ [(i, t, out')] } :
      State T ι).claims =
        Function.update (Function.update s.claims (some i) []) none
          (s.batches.flatMap positions ++ span t n) := by
    funext q
    cases q with
    | none =>
      rw [Function.update_self]
      show (s.batches ++ [(i, t, out')]).flatMap positions = _
      rw [List.flatMap_append, List.flatMap_singleton, positions, hlen]
    | some j =>
      rw [Function.update_of_ne (Option.some_ne_none j)]
      exact congrFun (claims_setThief (s := s) (i := i) .idle) (some j)
  have htr : Transfer Set.univ [] [] s.claims
      ({ s.setThief i .idle with batches := s.batches ++ [(i, t, out')] } : State T ι).claims := by
    rw [hclaims]
    refine Transfer.two (Option.some_ne_none i) (Set.mem_univ _) (Set.mem_univ _) ?_
    show (s.batches.flatMap positions ++ span t n).Perm
      ((s.thief i).claim ++ s.batches.flatMap positions)
    rw [hpc]
    exact List.perm_append_comm
  have hnil : ∀ p ∈ ([] : List ℤ), ¬ Within s.claims p := fun p hp => absurd hp List.not_mem_nil
  refine ⟨htr.separate h.separate List.nodup_nil hnil, fun p => ?_⟩
  rw [htr.within, h.within]
  exact ⟨fun hp => hp.resolve_left List.not_mem_nil, Or.inr⟩

end Claims

/-! ### Runs -/

section Runs

variable [DecidableEq ι] {c : Capacity} {s s' : State T ι}

theorem thiefStep_claimed {i : ι} {spurious : Bool} (h : Claimed s) (hc : Copies c s)
    (hs : thiefStep c s i spurious = some s') : Claimed s' := by
  have hok := hc.thief i
  rw [thiefStep] at hs
  cases hpc : s.thief i with
  | idle => simp [hpc] at hs
  | takeBottom b =>
    have hnone : (s.thief i).claim = [] := by rw [hpc]; rfl
    simp only [hpc] at hs
    split at hs
    · obtain rfl := Option.some.inj hs
      exact h.setThief hnone.symm
    · obtain rfl := Option.some.inj hs
      exact h.setThief hnone.symm
  | takeTop t n =>
    have hnone : (s.thief i).claim = [] := by rw [hpc]; rfl
    simp only [hpc] at hs
    by_cases htop : s.top = t
    · subst htop
      rw [if_pos rfl] at hs
      obtain rfl := Option.some.inj hs
      exact h.claim hc.top_nonneg hnone _
    · rw [if_neg htop] at hs
      obtain rfl := Option.some.inj hs
      exact h.setThief hnone.symm
  | takeCopy t n out =>
    obtain ⟨-, hlt, -⟩ := hc.copied hpc
    have hclaim : (s.thief i).claim = span t n := by rw [hpc]; rfl
    simp only [hpc] at hs
    split at hs
    · obtain rfl := Option.some.inj hs
      exact h.setThief hclaim.symm
    next hdone =>
      obtain rfl := Option.some.inj hs
      refine h.return hpc ?_
      rw [List.length_append, List.length_singleton] at hdone ⊢
      omega
  | _ =>
    rw [hpc] at hok
    exact hok.elim

omit [DecidableEq ι] in
theorem ownerStep_claimed (h : Claimed s) (hc : Copies c s) (hs : ownerStep c s = some s') :
    Claimed s' := by
  have hpush := hc.owner
  rw [PushOk] at hpush
  rw [ownerStep] at hs
  cases howner : s.owner with
  | idle => simp [howner] at hs
  | pushBottom node b =>
    simp only [howner] at hs
    split at hs
    · obtain rfl := Option.some.inj hs
      exact h.congr (fun _ => rfl) rfl rfl
    · obtain rfl := Option.some.inj hs
      exact h.congr (fun _ => rfl) rfl rfl
  | pushRoom node b =>
    simp only [howner] at hs
    obtain rfl := Option.some.inj hs
    exact h.congr (fun _ => rfl) rfl rfl
  | pushWritten node b =>
    simp only [howner] at hs
    obtain rfl := Option.some.inj hs
    exact h.congr (fun _ => rfl) rfl rfl
  | _ =>
    rw [howner] at hpush
    exact hpush.elim

theorem step_claimed {l : Label T ι} (h : Claimed s) (hc : Copies c s) (honly : l.PushOrTake)
    (hs : step c s l = some s') : Claimed s' := by
  cases l with
  | tryPop => exact honly.elim
  | steal i => exact honly.elim
  | owner => exact ownerStep_claimed h hc hs
  | thief i spurious => exact thiefStep_claimed h hc hs
  | push node =>
    rw [step] at hs
    split at hs
    · obtain rfl := Option.some.inj hs
      exact h.congr (fun _ => rfl) rfl rfl
    · cases hs
  | takeHalf i =>
    rw [step] at hs
    split at hs
    next hpc =>
      obtain rfl := Option.some.inj hs
      exact h.setThief (by rw [hpc]; rfl)
    · cases hs

theorem run_copies {ls : List (Label T ι)} (honly : ∀ l ∈ ls, l.PushOrTake)
    (hfree : StepSystem.Meets (step c) (StoresFree c) (init T ι) ls)
    (hrun : StepSystem.run (step c) (init T ι) ls = some s) : Copies c s ∧ Claimed s := by
  have hlabels : StepSystem.Meets (step c) (fun _ l => l.PushOrTake) (init T ι) ls :=
    StepSystem.Meets.of_forall honly
  refine StepSystem.run_invariant_of_meets (I := fun s => Copies c s ∧ Claimed s) ?_
    ⟨copies_init c, claimed_init⟩ (hlabels.and hfree) hrun
  rintro s l s' ⟨hc, hcl⟩ ⟨honly, hfree⟩ hs
  exact ⟨step_copies hc honly hfree hs, step_claimed hcl hc honly hs⟩

/-- **`TakeHalf` copies the tasks it claimed**, in every run in which `Push` never
stores into the slot of a claimed position that is still to be copied: a batch
holds the values pushed for the positions over which `top_` was moved, no position
is in two batches or twice in one, and when all calls have returned every position
below `top_` is in one. -/
theorem batches_copied (c : Capacity) (ls : List (Label T ι)) (s : State T ι)
    (honly : ∀ l ∈ ls, l.PushOrTake)
    (hfree : StepSystem.Meets (step c) (StoresFree c) (init T ι) ls)
    (hrun : StepSystem.run (step c) (init T ι) ls = some s) :
    (∀ x ∈ s.batches, 0 ≤ x.2.1 ∧ x.2.2 ≠ [] ∧ Copied s.accepted x.2.1 x.2.2) ∧
      (s.batches.flatMap positions).Nodup ∧
      (s.Quiescent → ∀ p, p ∈ s.batches.flatMap positions ↔ 0 ≤ p ∧ p < s.top) := by
  obtain ⟨hc, hcl⟩ := run_copies honly hfree hrun
  refine ⟨hc.batches, hcl.separate.nodup none, fun hq p => ?_⟩
  rw [← hcl.within p]
  constructor
  · intro hp
    exact ⟨none, hp⟩
  · rintro ⟨q, hq'⟩
    cases q with
    | none => exact hq'
    | some i =>
      have hi : p ∈ (s.thief i).claim := hq'
      rw [hq.2 i] at hi
      exact absurd hi List.not_mem_nil

end Runs

/-- A whole `Push` that finds room. -/
def ownerPush (x : ℕ) : List (Label ℕ Unit) := [.push (some x), .owner, .owner, .owner]

def capacity2 : Capacity := ⟨2, 1, rfl⟩

/-- Both slots are filled, and a thief loads `bottom_` and `top_` and claims
position 0. -/
def claimFirst : List (Label ℕ Unit) :=
  ownerPush 10 ++ ownerPush 11 ++ [.takeHalf (), .thief () false, .thief () false]

/-- The thief copies before the owner pushes on; the next batch has position 1. -/
theorem batches_copied_in_turn :
    ∃ s, StepSystem.run (step capacity2) (init ℕ Unit)
        (claimFirst ++ [.thief () false] ++ ownerPush 12 ++
          [.takeHalf (), .thief () false, .thief () false, .thief () false]) = some s ∧
      s.batches = [((), 0, [some 10]), ((), 1, [some 11])] ∧
      Copied s.accepted 1 [some 11] := by
  obtain ⟨s, hrun, hb⟩ : ∃ s, StepSystem.run (step capacity2) (init ℕ Unit)
      (claimFirst ++ [.thief () false] ++ ownerPush 12 ++
        [.takeHalf (), .thief () false, .thief () false, .thief () false]) = some s ∧
      s.batches = [((), 0, [some 10]), ((), 1, [some 11])] :=
    StepSystem.exists_of_run_any (by decide +kernel)
  have h := (batches_copied capacity2 _ s (by decide) (by decide +kernel) hrun).1
  exact ⟨s, hrun, hb, (h ((), 1, [some 11]) (by rw [hb]; simp)).2.2⟩

/-- **A wrapped push overwrites a claimed slot.**  With both slots full the thief
claims position 0; the owner then finds room and pushes 12 into the slot of
position 0, and the thief copies it: the batch for position 0 holds 12, and 10,
which was pushed there, is in no slot any more. -/
theorem wrapped_push_overwrites :
    ∃ s, StepSystem.run (step capacity2) (init ℕ Unit)
        (claimFirst ++ ownerPush 12 ++ [.thief () false]) = some s ∧
      s.Quiescent ∧ s.accepted = [some 10, some 11, some 12] ∧
      s.batches = [((), 0, [some 12])] ∧ s.top = 1 ∧
      s.buffer 0 = some 12 ∧ s.buffer 1 = some 11 ∧ ¬ Copied s.accepted 0 [some 12] :=
  StepSystem.exists_of_run_any (by decide +kernel)

end SpmcQueue
