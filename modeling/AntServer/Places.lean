/-
Things that are each in one place.

`L : ι → List α` lists what is in each place.  `Separate L` says that no thing is
twice in one place or in two places; `Within L a` that `a` is in some place.

* `Separate.replace` — rearranging finitely many places, possibly with new
  things, keeps the places separate; moving things (`Separate.exchange`) and
  putting a new one somewhere (`Separate.put`) are special cases;
* `Separate.existsUnique` — a thing that is somewhere is in exactly one place;
* `Transfer S ins outs` — a step that only rearranges places in `S`, where `ins`
  enter and `outs` leave; what it does to `Separate` and to `presence`.
-/
import Mathlib

variable {ι α : Type*} {L L' : ι → List α} {ps : List ι} {i j : ι} {a : α}

/-- No thing is twice in one place or in two places. -/
structure Separate (L : ι → List α) : Prop where
  nodup : ∀ i, (L i).Nodup
  disjoint : ∀ i j, i ≠ j → ∀ a ∈ L i, a ∉ L j

/-- The thing `a` is in some place. -/
def Within (L : ι → List α) (a : α) : Prop := ∃ i, a ∈ L i

theorem Separate.eq_of_mem (h : Separate L) (hi : a ∈ L i) (hj : a ∈ L j) : i = j := by
  by_contra hne
  exact h.disjoint i j hne a hi hj

theorem Separate.existsUnique (h : Separate L) (ha : Within L a) : ∃! i, a ∈ L i := by
  obtain ⟨i, hi⟩ := ha
  exact ⟨i, hi, fun j hj => h.eq_of_mem hj hi⟩

theorem Separate.nil : Separate (fun _ : ι => ([] : List α)) where
  nodup := fun _ => List.nodup_nil
  disjoint := fun _ _ _ _ ha => absurd ha List.not_mem_nil

/-- Leaving things out keeps the places separate. -/
theorem Separate.mono (h : Separate L) (hsub : ∀ i, (L' i).Sublist (L i)) : Separate L' where
  nodup := fun i => (h.nodup i).sublist (hsub i)
  disjoint := fun i j hne a hi hj =>
    h.disjoint i j hne a ((hsub i).subset hi) ((hsub j).subset hj)

theorem mem_flatMap_of_mem (hi : i ∈ ps) (ha : a ∈ L i) : a ∈ ps.flatMap L :=
  List.mem_flatMap.mpr ⟨i, hi, ha⟩

/-- Separate places have no repetition together. -/
theorem Separate.nodup_flatMap (h : Separate L) (hps : ps.Nodup) : (ps.flatMap L).Nodup := by
  refine List.nodup_flatMap.mpr ⟨fun i _ => h.nodup i, hps.imp fun {i j} hne => ?_⟩
  exact fun a hi hj => h.disjoint i j hne a hi hj

/-- What is in one of the places `ps` is in no other. -/
theorem Separate.notMem_of_mem_flatMap (h : Separate L) (ha : a ∈ ps.flatMap L) (hj : j ∉ ps) :
    a ∉ L j := by
  obtain ⟨i, hi, hai⟩ := List.mem_flatMap.mp ha
  exact fun haj => hj (h.eq_of_mem hai haj ▸ hi)

/-- **Rearranging** the places `ps`, with things from these places and things
that were nowhere. -/
theorem Separate.replace (h : Separate L) (hnd : (ps.flatMap L').Nodup)
    (hmem : ∀ a ∈ ps.flatMap L', a ∈ ps.flatMap L ∨ ¬ Within L a)
    (hrest : ∀ k ∉ ps, L' k = L k) : Separate L' := by
  obtain ⟨hin, hdis⟩ := List.nodup_flatMap.mp hnd
  have hother : ∀ m ∈ ps, ∀ k ∉ ps, ∀ a ∈ L' m, a ∉ L' k := by
    intro m hm k hk a ha hak
    rw [hrest k hk] at hak
    rcases hmem a (mem_flatMap_of_mem hm ha) with hold | hnew
    · exact h.notMem_of_mem_flatMap hold hk hak
    · exact hnew ⟨k, hak⟩
  refine ⟨fun k => ?_, fun k l hkl a hak hal => ?_⟩
  · by_cases hk : k ∈ ps
    · exact hin k hk
    · rw [hrest k hk]
      exact h.nodup k
  · by_cases hk : k ∈ ps
    · by_cases hl : l ∈ ps
      · have : Std.Symm (Function.onFun List.Disjoint L') := ⟨fun _ _ hd => hd.symm⟩
        exact hdis.forall hk hl hkl hak hal
      · exact hother k hk l hl a hak hal
    · by_cases hl : l ∈ ps
      · exact hother l hl k hk a hal hak
      · rw [hrest k hk] at hak
        rw [hrest l hl] at hal
        exact h.disjoint k l hkl a hak hal

/-- **Moving things** among the places `ps`, or out of them. -/
theorem Separate.exchange (h : Separate L) (hps : ps.Nodup)
    (hsub : (ps.flatMap L').Subperm (ps.flatMap L)) (hrest : ∀ k ∉ ps, L' k = L k) :
    Separate L' := by
  obtain ⟨l, hl, hsl⟩ := hsub
  refine h.replace (hl.nodup_iff.mp ((h.nodup_flatMap hps).sublist hsl)) (fun a ha => ?_) hrest
  exact Or.inl (hsl.subset (hl.mem_iff.mpr ha))

theorem within_exchange (hperm : (ps.flatMap L').Perm (ps.flatMap L))
    (hrest : ∀ k ∉ ps, L' k = L k) : Within L' a ↔ Within L a := by
  have key : ∀ {M M' : ι → List α}, (ps.flatMap M).Perm (ps.flatMap M') →
      (∀ k ∉ ps, M k = M' k) → Within M a → Within M' a := by
    rintro M M' hp hr ⟨k, hk⟩
    by_cases hmem : k ∈ ps
    · obtain ⟨k', -, hk'⟩ := List.mem_flatMap.mp (hp.mem_iff.mp (mem_flatMap_of_mem hmem hk))
      exact ⟨k', hk'⟩
    · exact ⟨k, hr k hmem ▸ hk⟩
  exact ⟨key hperm hrest, key hperm.symm fun k hk => (hrest k hk).symm⟩

/-- Moving things from one place to another. -/
theorem Separate.move (h : Separate L) (hij : i ≠ j)
    (hperm : (L' i ++ L' j).Perm (L i ++ L j)) (hrest : ∀ k, k ≠ i → k ≠ j → L' k = L k) :
    Separate L' ∧ ∀ a, Within L' a ↔ Within L a := by
  have hflat : ∀ M : ι → List α, [i, j].flatMap M = M i ++ M j := fun M => by simp
  have hrest' : ∀ k ∉ [i, j], L' k = L k := fun k hk => by
    obtain ⟨hki, hkj⟩ : k ≠ i ∧ k ≠ j := by simpa using hk
    exact hrest k hki hkj
  have hperm' : ([i, j].flatMap L').Perm ([i, j].flatMap L) := by
    rw [hflat, hflat]
    exact hperm
  exact ⟨h.exchange (by simpa using hij) hperm'.subperm hrest',
    fun a => within_exchange hperm' hrest'⟩

/-- Things seen through a function that keeps them apart. -/
theorem Separate.map {β : Type*} {f : α → β} (h : Separate L)
    (hf : ∀ a b, Within L a → Within L b → f a = f b → a = b) :
    Separate fun i => (L i).map f where
  nodup := fun i => (h.nodup i).map_on fun a ha b hb => hf a b ⟨i, ha⟩ ⟨i, hb⟩
  disjoint := by
    intro i j hij b hi hj
    obtain ⟨a, ha, rfl⟩ := List.mem_map.mp hi
    obtain ⟨a', ha', heq⟩ := List.mem_map.mp hj
    obtain rfl := hf a' a ⟨j, ha'⟩ ⟨i, ha⟩ heq
    exact h.disjoint i j hij a' ha ha'

theorem within_map {β : Type*} {f : α → β} {b : β} :
    Within (fun i => (L i).map f) b ↔ ∃ a, Within L a ∧ f a = b := by
  constructor
  · rintro ⟨i, hi⟩
    obtain ⟨a, ha, rfl⟩ := List.mem_map.mp hi
    exact ⟨a, ⟨i, ha⟩, rfl⟩
  · rintro ⟨a, ⟨i, ha⟩, rfl⟩
    exact ⟨i, List.mem_map_of_mem ha⟩

/-- **Putting** a thing that is nowhere into the place `i`. -/
theorem Separate.put (h : Separate L) (hnew : ¬ Within L a) (hperm : (L' i).Perm (a :: L i))
    (hrest : ∀ k, k ≠ i → L' k = L k) : Separate L' := by
  have hflat : ∀ M : ι → List α, [i].flatMap M = M i := fun M => by simp
  have hnd : ([i].flatMap L').Nodup := by
    rw [hflat]
    exact hperm.nodup_iff.mpr (List.nodup_cons.mpr ⟨fun ha => hnew ⟨i, ha⟩, h.nodup i⟩)
  refine h.replace hnd (fun b hb => ?_) fun k hk => hrest k (by simpa using hk)
  rw [hflat] at hb ⊢
  rcases List.mem_cons.mp (hperm.mem_iff.mp hb) with rfl | hb
  · exact Or.inr hnew
  · exact Or.inl hb

theorem within_put (hperm : (L' i).Perm (a :: L i)) (hrest : ∀ k, k ≠ i → L' k = L k)
    {b : α} : Within L' b ↔ b = a ∨ Within L b := by
  constructor
  · rintro ⟨k, hk⟩
    by_cases hki : k = i
    · subst hki
      rcases List.mem_cons.mp (hperm.mem_iff.mp hk) with rfl | hb
      · exact Or.inl rfl
      · exact Or.inr ⟨k, hb⟩
    · exact Or.inr ⟨k, hrest k hki ▸ hk⟩
  · rintro (rfl | ⟨k, hk⟩)
    · exact ⟨i, hperm.mem_iff.mpr List.mem_cons_self⟩
    · by_cases hki : k = i
      · subst hki
        exact ⟨k, hperm.mem_iff.mpr (List.mem_cons_of_mem a hk)⟩
      · exact ⟨k, (hrest k hki).symm ▸ hk⟩

/-! ### Presence in a set of places -/

open Classical in
/-- 1 if `a` is in one of the places in `S`, otherwise 0. -/
noncomputable def presence (L : ι → List α) (S : Set ι) (a : α) : ℕ :=
  if ∃ i ∈ S, a ∈ L i then 1 else 0

theorem presence_eq_zero {S : Set ι} : presence L S a = 0 ↔ ∀ i ∈ S, a ∉ L i := by
  simp [presence]

theorem presence_congr {S S' : Set ι} (h : (∃ i ∈ S, a ∈ L i) ↔ ∃ i ∈ S', a ∈ L' i) :
    presence L S a = presence L' S' a := by
  classical exact if_congr h rfl rfl

/-- A thing in one of the places `ps` is counted there, otherwise outside. -/
theorem Separate.presence_eq [DecidableEq α] (h : Separate L) {S : Set ι} (hps : ps.Nodup)
    (hS : ∀ p ∈ ps, p ∈ S) :
    presence L S a = (ps.flatMap L).count a + presence L {i | i ∈ S ∧ i ∉ ps} a := by
  by_cases ha : a ∈ ps.flatMap L
  · obtain ⟨i, hi, hai⟩ := List.mem_flatMap.mp ha
    have hin : presence L S a = 1 := if_pos ⟨i, hS i hi, hai⟩
    have hout : presence L {i | i ∈ S ∧ i ∉ ps} a = 0 :=
      presence_eq_zero.mpr fun j hj => h.notMem_of_mem_flatMap ha hj.2
    rw [hin, hout, List.count_eq_one_of_mem (h.nodup_flatMap hps) ha]
  · rw [List.count_eq_zero_of_not_mem ha, Nat.zero_add]
    refine presence_congr ⟨?_, ?_⟩
    · rintro ⟨i, hi, hai⟩
      exact ⟨i, ⟨hi, fun hmem => ha (mem_flatMap_of_mem hmem hai)⟩, hai⟩
    · rintro ⟨i, hi, hai⟩
      exact ⟨i, hi.1, hai⟩

/-! ### Transfers -/

/-- From `L` to `L'` the things `ins` enter the places in `S` and `outs` leave them;
no other place changes. -/
def Transfer (S : Set ι) (ins outs : List α) (L L' : ι → List α) : Prop :=
  ∃ ps : List ι, ps.Nodup ∧ (∀ p ∈ ps, p ∈ S) ∧
    (outs ++ ps.flatMap L').Perm (ins ++ ps.flatMap L) ∧ ∀ k ∉ ps, L' k = L k

variable {S : Set ι} {ins outs : List α}

/-- **A transfer keeps the places separate** if what enters was nowhere. -/
theorem Transfer.separate (h : Transfer S ins outs L L') (hL : Separate L) (hins : ins.Nodup)
    (hnew : ∀ a ∈ ins, ¬ Within L a) : Separate L' := by
  obtain ⟨ps, hps, -, hperm, hrest⟩ := h
  have hold : (ins ++ ps.flatMap L).Nodup := by
    refine List.nodup_append.mpr ⟨hins, hL.nodup_flatMap hps, ?_⟩
    rintro a ha b hb rfl
    obtain ⟨i, -, hi⟩ := List.mem_flatMap.mp hb
    exact hnew a ha ⟨i, hi⟩
  have hnd : (ps.flatMap L').Nodup := (hperm.nodup_iff.mpr hold).of_append_right
  refine hL.replace hnd (fun a ha => ?_) hrest
  rcases List.mem_append.mp (hperm.mem_iff.mp (List.mem_append_right outs ha)) with hi | hi
  · exact Or.inr (hnew a hi)
  · exact Or.inl hi

/-- What is somewhere after a transfer from which nothing leaves. -/
theorem Transfer.within (h : Transfer S ins [] L L') : Within L' a ↔ a ∈ ins ∨ Within L a := by
  obtain ⟨ps, -, -, hperm, hrest⟩ := h
  have hmem : a ∈ ps.flatMap L' ↔ a ∈ ins ∨ a ∈ ps.flatMap L := by
    rw [← List.mem_append, ← hperm.mem_iff, List.nil_append]
  constructor
  · rintro ⟨k, hk⟩
    by_cases hps : k ∈ ps
    · rcases hmem.mp (mem_flatMap_of_mem hps hk) with hin | hold
      · exact Or.inl hin
      · obtain ⟨k', -, hk'⟩ := List.mem_flatMap.mp hold
        exact Or.inr ⟨k', hk'⟩
    · exact Or.inr ⟨k, hrest k hps ▸ hk⟩
  · intro h
    by_cases hnew : a ∈ ins ∨ a ∈ ps.flatMap L
    · obtain ⟨k, -, hk⟩ := List.mem_flatMap.mp (hmem.mpr hnew)
      exact ⟨k, hk⟩
    · rcases h with hin | ⟨k, hk⟩
      · exact absurd (Or.inl hin) hnew
      · have hps : k ∉ ps := fun hps => hnew (Or.inr (mem_flatMap_of_mem hps hk))
        exact ⟨k, (hrest k hps).symm ▸ hk⟩

/-- What was in one of the places leaves or stays in one of them. -/
theorem Transfer.mem_or (h : Transfer S ins outs L L') (hi : i ∈ S) (ha : a ∈ L i) :
    a ∈ outs ∨ ∃ j ∈ S, a ∈ L' j := by
  obtain ⟨ps, -, hS, hperm, hrest⟩ := h
  by_cases hps : i ∈ ps
  · have hmem := hperm.mem_iff.mpr (List.mem_append_right ins (mem_flatMap_of_mem hps ha))
    rcases List.mem_append.mp hmem with hout | hnew
    · exact Or.inl hout
    · obtain ⟨j, hj, haj⟩ := List.mem_flatMap.mp hnew
      exact Or.inr ⟨j, hS j hj, haj⟩
  · exact Or.inr ⟨i, hi, (hrest i hps).symm ▸ ha⟩

theorem Transfer.eq_of_notMem (h : Transfer S ins outs L L') (hi : i ∉ S) : L' i = L i := by
  obtain ⟨ps, -, hS, -, hrest⟩ := h
  exact hrest i fun hps => hi (hS i hps)

/-- **A transfer changes the presence** in `S` by what enters and leaves. -/
theorem Transfer.presence_add [DecidableEq α] (h : Transfer S ins outs L L') (hL : Separate L)
    (hL' : Separate L') (a : α) :
    presence L' S a + outs.count a = presence L S a + ins.count a := by
  obtain ⟨ps, hps, hS, hperm, hrest⟩ := h
  have hout : presence L' {i | i ∈ S ∧ i ∉ ps} a = presence L {i | i ∈ S ∧ i ∉ ps} a := by
    refine presence_congr ⟨?_, ?_⟩
    · rintro ⟨i, hi, hai⟩
      exact ⟨i, hi, hrest i hi.2 ▸ hai⟩
    · rintro ⟨i, hi, hai⟩
      exact ⟨i, hi, (hrest i hi.2).symm ▸ hai⟩
  have hcount := hperm.count_eq a
  rw [List.count_append, List.count_append] at hcount
  rw [hL.presence_eq hps hS, hL'.presence_eq hps hS, hout]
  omega

/-- Places outside `S` do not notice a transfer. -/
theorem Transfer.presence_of_disjoint (h : Transfer S ins outs L L') {S' : Set ι}
    (hdis : Disjoint S S') (a : α) : presence L' S' a = presence L S' a := by
  have hkeep : ∀ i ∈ S', L' i = L i := fun i hi =>
    h.eq_of_notMem (Set.disjoint_right.mp hdis hi)
  refine presence_congr ⟨?_, ?_⟩
  · rintro ⟨i, hi, hai⟩
    exact ⟨i, hi, hkeep i hi ▸ hai⟩
  · rintro ⟨i, hi, hai⟩
    exact ⟨i, hi, (hkeep i hi).symm ▸ hai⟩

/-- New contents of one place. -/
theorem Transfer.one [DecidableEq ι] {xs : List α} (hi : i ∈ S)
    (hperm : (outs ++ xs).Perm (ins ++ L i)) :
    Transfer S ins outs L (Function.update L i xs) := by
  refine ⟨[i], List.nodup_singleton i, by simpa using hi, by simpa using hperm, fun k hk => ?_⟩
  exact Function.update_of_ne (by simpa using hk) _ _

/-- New contents of two places. -/
theorem Transfer.two [DecidableEq ι] {xs ys : List α} (hij : i ≠ j) (hi : i ∈ S) (hj : j ∈ S)
    (hperm : (outs ++ (xs ++ ys)).Perm (ins ++ (L i ++ L j))) :
    Transfer S ins outs L (Function.update (Function.update L i xs) j ys) := by
  refine ⟨[i, j], by simpa using hij, by simp [hi, hj], ?_, fun k hk => ?_⟩
  · simpa [Function.update_of_ne hij] using hperm
  · obtain ⟨hki, hkj⟩ : k ≠ i ∧ k ≠ j := by simpa using hk
    rw [Function.update_of_ne hkj, Function.update_of_ne hki]
