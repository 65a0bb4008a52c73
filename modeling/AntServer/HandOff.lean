/-
Handing an object over in the middle of a sequence of statements.

A party executes statements that read and write the fields of an object.  One of them may
publish the object: from then on another party can take it at any moment, and the fields
are not there any more for the first one.  A statement may also give the object up on the spot.

* `step` — the interleavings of the two parties; `late` records the accesses made after the
  object was taken;
* `handsOffLast` — no statement behind a hand-off accesses a field;
* `noLate_iff` — this is exactly when no interleaving has a late access.
-/
import AntServer.StepSystem

namespace HandOff

variable {F : Type*}

inductive Op (F : Type*)
  | read (f : F)
  | write (f : F)
  | publish           -- from here on the other party can take the object
  | give              -- the other party has the object
deriving DecidableEq, Repr

/-- The statement touches the object. -/
def Op.accesses : Op F → Bool
  | .read _ | .write _ => true
  | .publish | .give => false

structure State (F : Type*) where
  rest : List (Op F)          -- the statements still to execute
  published : Bool
  taken : Bool
  late : List (Op F)          -- history: the accesses after the object was taken
deriving DecidableEq, Repr

def start (ops : List (Op F)) : State F where
  rest := ops
  published := false
  taken := false
  late := []

inductive Label
  | exec              -- the first party executes its next statement
  | take              -- the other party takes the published object
deriving DecidableEq, Repr

/-- The statement `op` is executed and `rest` is left. -/
def State.exec (s : State F) (op : Op F) (rest : List (Op F)) : State F :=
  match op with
  | .publish => { s with rest := rest, published := true }
  | .give => { s with rest := rest, taken := true }
  | op => { s with rest := rest, late := if s.taken then s.late ++ [op] else s.late }

def step (s : State F) : Label → Option (State F)
  | .exec =>
    match s.rest with
    | [] => none
    | op :: rest => some (s.exec op rest)
  | .take => if s.published ∧ s.taken = false then some { s with taken := true } else none

/-- No interleaving has a late access. -/
def NoLate (ops : List (Op F)) : Prop :=
  ∀ ls s, StepSystem.run step (start ops) ls = some s → s.late = []

/-- Nothing is accessed behind a hand-off. -/
def handsOffLast : List (Op F) → Bool
  | [] => true
  | .publish :: ops | .give :: ops => ops.all fun op => !op.accesses
  | .read _ :: ops | .write _ :: ops => handsOffLast ops

/-- What comes before the first hand-off does not matter. -/
theorem handsOffLast_append {xs ops : List (Op F)} (h : ∀ op ∈ xs, op.accesses = true) :
    handsOffLast (xs ++ ops) = handsOffLast ops := by
  induction xs with
  | nil => rfl
  | cons op xs ih =>
    obtain ⟨hop, hxs⟩ := List.forall_mem_cons.mp h
    cases op with
    | read f | write f => exact ih hxs
    | publish | give => cases hop

/-! ### Sequences without late accesses -/

/-- While the object is in the party's hands the rest hands off last; afterwards the rest
accesses nothing. -/
structure Careful (s : State F) : Prop where
  late : s.late = []
  before : s.published = false → s.taken = false → handsOffLast s.rest = true
  after : s.published = true ∨ s.taken = true → ∀ op ∈ s.rest, op.accesses = false

theorem careful_start {ops : List (Op F)} (h : handsOffLast ops = true) : Careful (start ops) where
  late := rfl
  before := fun _ _ => h
  after := by
    intro hgone
    rcases hgone with hgone | hgone
    · cases hgone
    · cases hgone

/-- The rest after a hand-off. -/
theorem Careful.rest_quiet {s : State F} {op : Op F} {rest : List (Op F)} (h : Careful s)
    (hrest : s.rest = op :: rest) (hop : op = .publish ∨ op = .give) :
    ∀ op' ∈ rest, op'.accesses = false := by
  by_cases hgone : s.published = true ∨ s.taken = true
  · intro op' hop'
    exact h.after hgone op' (hrest ▸ List.mem_cons_of_mem op hop')
  · obtain ⟨hp, ht⟩ : s.published = false ∧ s.taken = false := by simpa using hgone
    have hlast := h.before hp ht
    rw [hrest] at hlast
    rcases hop with rfl | rfl
    · simpa [handsOffLast] using hlast
    · simpa [handsOffLast] using hlast

/-- An access by the party that still has the object. -/
theorem Careful.access {s : State F} {op : Op F} {rest : List (Op F)} (h : Careful s)
    (hrest : s.rest = op :: rest) (hacc : op.accesses = true)
    (hlast : handsOffLast (op :: rest) = handsOffLast rest) :
    Careful { s with rest := rest, late := if s.taken then s.late ++ [op] else s.late } := by
  have hhere : ¬ (s.published = true ∨ s.taken = true) := by
    intro hgone
    have hquiet := h.after hgone op (hrest ▸ List.mem_cons_self)
    rw [hacc] at hquiet
    cases hquiet
  obtain ⟨hp, ht⟩ : s.published = false ∧ s.taken = false := by simpa using hhere
  refine ⟨?_, fun _ _ => ?_, fun hgone => absurd hgone hhere⟩
  · show (if s.taken then s.late ++ [op] else s.late) = []
    rw [if_neg (by simp [ht])]
    exact h.late
  · have := h.before hp ht
    rw [hrest, hlast] at this
    exact this

theorem careful_step {s s' : State F} {l : Label} (h : Careful s) (hs : step s l = some s') :
    Careful s' := by
  cases l with
  | exec =>
    cases hrest : s.rest with
    | nil =>
      simp only [step, hrest] at hs
      cases hs
    | cons op rest =>
      simp only [step, hrest] at hs
      obtain rfl := Option.some.inj hs
      cases op with
      | publish =>
        refine ⟨h.late, fun hp => ?_, fun _ => h.rest_quiet hrest (Or.inl rfl)⟩
        cases hp
      | give =>
        refine ⟨h.late, fun _ ht => ?_, fun _ => h.rest_quiet hrest (Or.inr rfl)⟩
        cases ht
      | read f => exact h.access hrest rfl rfl
      | write f => exact h.access hrest rfl rfl
  | take =>
    obtain ⟨⟨hp, -⟩, heq⟩ := Option.ite_none_right_eq_some.mp hs
    obtain rfl := Option.some.inj heq
    refine ⟨h.late, fun _ ht => ?_, fun _ => h.after (Or.inl hp)⟩
    cases ht

/-! ### Sequences with one -/

/-- A party that goes on after the object was taken reaches the next access. -/
theorem exists_late_of_taken {s : State F} (htaken : s.taken = true)
    (hacc : ∃ op ∈ s.rest, op.accesses = true) :
    ∃ ls s', StepSystem.run step s ls = some s' ∧ s'.late ≠ [] := by
  induction hrest : s.rest generalizing s with
  | nil =>
    obtain ⟨op, hop, -⟩ := hacc
    rw [hrest] at hop
    exact absurd hop List.not_mem_nil
  | cons op rest ih =>
    have hexec : step s .exec = some (s.exec op rest) := by
      simp only [step, hrest]
    by_cases hop : op.accesses = true
    · -- this one is late
      refine ⟨[.exec], s.exec op rest, StepSystem.run_cons.mpr ⟨_, hexec, rfl⟩, ?_⟩
      cases op with
      | read f | write f => simp [State.exec, htaken]
      | publish | give => cases hop
    · have hacc' : ∃ op' ∈ rest, op'.accesses = true := by
        obtain ⟨op', hmem, hacc'⟩ := hacc
        rw [hrest] at hmem
        rcases List.mem_cons.mp hmem with rfl | hmem
        · exact absurd hacc' hop
        · exact ⟨op', hmem, hacc'⟩
      have hnext : (s.exec op rest).rest = rest ∧ (s.exec op rest).taken = true := by
        cases op with
        | read f | write f | publish => exact ⟨rfl, htaken⟩
        | give => exact ⟨rfl, rfl⟩
      obtain ⟨ls, s', hrun, hlate⟩ := ih hnext.2 (hnext.1.symm ▸ hacc') hnext.1
      exact ⟨.exec :: ls, s', StepSystem.run_cons.mpr ⟨_, hexec, hrun⟩, hlate⟩

theorem exists_late {ops : List (Op F)} (h : handsOffLast ops = false) :
    ∃ ls s, StepSystem.run step (start ops) ls = some s ∧ s.late ≠ [] := by
  induction ops with
  | nil => cases h
  | cons op ops ih =>
    have hexec : step (start (op :: ops)) .exec = some ((start (op :: ops)).exec op ops) := rfl
    cases op with
    | read f | write f =>
      -- the object is still the party's own
      obtain ⟨ls, s, hrun, hlate⟩ := ih h
      exact ⟨.exec :: ls, s, StepSystem.run_cons.mpr ⟨_, hexec, hrun⟩, hlate⟩
    | publish =>
      have hacc : ∃ op ∈ ops, op.accesses = true := by simpa [handsOffLast] using h
      obtain ⟨ls, s, hrun, hlate⟩ := exists_late_of_taken
        (s := { start (Op.publish :: ops) with rest := ops, published := true, taken := true })
        rfl hacc
      refine ⟨.exec :: .take :: ls, s, StepSystem.run_cons.mpr ⟨_, hexec, ?_⟩, hlate⟩
      exact StepSystem.run_cons.mpr ⟨_, rfl, hrun⟩
    | give =>
      have hacc : ∃ op ∈ ops, op.accesses = true := by simpa [handsOffLast] using h
      obtain ⟨ls, s, hrun, hlate⟩ := exists_late_of_taken
        (s := { start (Op.give :: ops) with rest := ops, taken := true }) rfl hacc
      exact ⟨.exec :: ls, s, StepSystem.run_cons.mpr ⟨_, hexec, hrun⟩, hlate⟩

/-- **No interleaving has a late access** exactly if nothing is accessed behind a hand-off. -/
theorem noLate_iff {ops : List (Op F)} : NoLate ops ↔ handsOffLast ops = true := by
  constructor
  · intro hno
    by_contra hlast
    rw [Bool.not_eq_true] at hlast
    obtain ⟨ls, s, hrun, hlate⟩ := exists_late hlast
    exact hlate (hno ls s hrun)
  · intro hlast ls s hrun
    exact (StepSystem.run_invariant (fun _ _ _ => careful_step) (careful_start hlast) hrun).late

end HandOff
