import Mathlib.Logic.Basic

/-!
# Walks through tables in memory

A walk starts at the root table and follows one entry of a table at each
level; the path says which one. `kid k e` is the table that the entry `e` of a
table of level `k` leads to. No table is at two places: then a write of one
entry changes the walks through this entry only.
-/

namespace Dancy.Lib.Descent

universe u v w

variable {φ : Type u} {ι : Type v} {ε : Type w}

/-- The table of level `k` on a walk. -/
def tableAt (kid : Nat → ε → Option φ) (mem : φ → ι → ε) (root : φ) (path : Nat → ι) :
    Nat → Option φ
  | 0 => some root
  | k + 1 => (tableAt kid mem root path k).bind fun t => kid k (mem t (path k))

def Agree (p q : Nat → ι) (k : Nat) : Prop := ∀ j < k, p j = q j

/-- A table is at one level, and one path leads to it. -/
structure Separate (kid : Nat → ε → Option φ) (mem : φ → ι → ε) (root : φ) : Prop where
  level : ∀ {p q : Nat → ι} {j k : Nat} {t : φ}, tableAt kid mem root p j = some t →
    tableAt kid mem root q k = some t → j = k
  path : ∀ {p q : Nat → ι} {k : Nat} {t : φ}, tableAt kid mem root p k = some t →
    tableAt kid mem root q k = some t → Agree p q k

variable {kid : Nat → ε → Option φ} {mem mem' : φ → ι → ε} {root t f u : φ} {p q : Nat → ι}
  {j k : Nat}

theorem tableAt_succ : tableAt kid mem root p (k + 1) = some u ↔
    ∃ t, tableAt kid mem root p k = some t ∧ kid k (mem t (p k)) = some u := by
  rw [tableAt, Option.bind_eq_some_iff]

section

variable (h : Agree p q k)
include h

theorem Agree.symm : Agree q p k := fun j hj => (h j hj).symm

theorem Agree.trans {r : Nat → ι} (h' : Agree q r k) : Agree p r k :=
  fun j hj => (h j hj).trans (h' j hj)

theorem Agree.succ (hk : p k = q k) : Agree p q (k + 1) := by
  intro j hj
  rcases Nat.lt_succ_iff_lt_or_eq.mp hj with hj | rfl
  · exact h j hj
  · exact hk

theorem Agree.mono (hjk : j ≤ k) : Agree p q j :=
  fun i hi => h i (Nat.lt_of_lt_of_le hi hjk)

end

theorem tableAt_agree : ∀ {k : Nat}, Agree p q k →
    tableAt kid mem root p k = tableAt kid mem root q k := by
  intro k
  induction k with
  | zero => exact fun _ => rfl
  | succ k ih =>
    intro h
    rw [tableAt, tableAt, ih (h.mono (Nat.le_succ k)), h k (Nat.lt_succ_self k)]

theorem tableAt_same (p : Nat → ι) : ∀ {k : Nat}, (∀ j < k, ∀ t, tableAt kid mem root p j = some t →
    kid j (mem' t (p j)) = kid j (mem t (p j))) →
      tableAt kid mem' root p k = tableAt kid mem root p k := by
  intro k
  induction k with
  | zero => exact fun _ => rfl
  | succ k ih =>
    intro h
    rw [tableAt, tableAt, ih fun j hj => h j (Nat.lt_succ_of_lt hj)]
    rcases ht : tableAt kid mem root p k with _ | t
    · rfl
    · exact h k (Nat.lt_succ_self k) t ht

section

variable (hsep : Separate kid mem root)
include hsep

theorem tableAt_write (hat : tableAt kid mem root p k = some t)
    (hother : ∀ f i, ¬ (f = t ∧ i = p k) → mem' f i = mem f i)
    (hkid : kid k (mem' t (p k)) = kid k (mem t (p k))) (q : Nat → ι) (j : Nat) :
    tableAt kid mem' root q j = tableAt kid mem root q j := by
  refine tableAt_same q fun i _ f hf => ?_
  by_cases hhere : f = t ∧ q i = p k
  · obtain ⟨rfl, hi⟩ := hhere
    obtain rfl := hsep.level hf hat
    rwa [hi]
  · rw [hother f (q i) hhere]

theorem Separate.congr (hsame : ∀ q j, tableAt kid mem' root q j = tableAt kid mem root q j) :
    Separate kid mem' root :=
  ⟨fun h h' => hsep.level (hsame _ _ ▸ h) (hsame _ _ ▸ h'),
    fun h h' => hsep.path (hsame _ _ ▸ h) (hsame _ _ ▸ h')⟩

theorem tableAt_link (hat : tableAt kid mem root p k = some t)
    (hother : ∀ g i, ¬ (g = t ∧ i = p k) → mem' g i = mem g i) (hold : kid k (mem t (p k)) = none)
    (hnew : kid k (mem' t (p k)) = some f) (hempty : ∀ i j, kid j (mem' f i) = none) (q : Nat → ι) :
    ∀ {j : Nat} {u : φ},
      tableAt kid mem' root q j = some u ↔
        tableAt kid mem root q j = some u ∨ j = k + 1 ∧ u = f ∧ Agree q p (k + 1) := by
  intro j
  induction j with
  | zero =>
    refine ⟨.inl, fun h => h.resolve_right ?_⟩
    rintro ⟨h, -⟩
    cases h
  | succ j ih =>
    intro u
    rw [tableAt_succ, tableAt_succ]
    constructor
    · rintro ⟨g, hg, hu⟩
      rcases ih.mp hg with hg | ⟨-, rfl, -⟩
      · by_cases hhere : g = t ∧ q j = p k
        · obtain ⟨rfl, hi⟩ := hhere
          obtain rfl := hsep.level hg hat
          rw [hi, hnew] at hu
          exact .inr ⟨rfl, (Option.some.inj hu).symm, (hsep.path hg hat).succ hi⟩
        · rw [hother g (q j) hhere] at hu
          exact .inl ⟨g, hg, hu⟩
      · rw [hempty] at hu
        cases hu
    · rintro (⟨g, hg, hu⟩ | ⟨hj, rfl, hagree⟩)
      · refine ⟨g, ih.mpr (.inl hg), ?_⟩
        by_cases hhere : g = t ∧ q j = p k
        · obtain ⟨rfl, hi⟩ := hhere
          obtain rfl := hsep.level hg hat
          rw [hi, hold] at hu
          cases hu
        · rwa [hother g (q j) hhere]
      · obtain rfl := Nat.succ.inj hj
        refine ⟨t, ih.mpr (.inl ?_), ?_⟩
        · rw [tableAt_agree (hagree.mono (Nat.le_succ j))]
          exact hat
        · rwa [hagree j (Nat.lt_succ_self j)]

/-- The tables stay at one place each, when the linked one was at none. -/
theorem Separate.link (hat : tableAt kid mem root p k = some t)
    (hother : ∀ g i, ¬ (g = t ∧ i = p k) → mem' g i = mem g i) (hold : kid k (mem t (p k)) = none)
    (hnew : kid k (mem' t (p k)) = some f) (hempty : ∀ i j, kid j (mem' f i) = none)
    (hfresh : ∀ q j, tableAt kid mem root q j ≠ some f) : Separate kid mem' root := by
  have hiff : ∀ (q : Nat → ι) {j : Nat} {u : φ}, tableAt kid mem' root q j = some u ↔
      tableAt kid mem root q j = some u ∨ j = k + 1 ∧ u = f ∧ Agree q p (k + 1) :=
    fun q => tableAt_link hsep hat hother hold hnew hempty q
  constructor
  · intro q r i j u hi hj
    rcases (hiff q).mp hi with hi | ⟨rfl, rfl, -⟩
    · rcases (hiff r).mp hj with hj | ⟨-, rfl, -⟩
      · exact hsep.level hi hj
      · exact absurd hi (hfresh q i)
    · rcases (hiff r).mp hj with hj | ⟨rfl, -, -⟩
      · exact absurd hj (hfresh r j)
      · rfl
  · intro q r i u hi hj
    rcases (hiff q).mp hi with hi | ⟨hk, rfl, hq⟩
    · rcases (hiff r).mp hj with hj | ⟨-, rfl, -⟩
      · exact hsep.path hi hj
      · exact absurd hi (hfresh q i)
    · rcases (hiff r).mp hj with hj | ⟨-, -, hr⟩
      · exact absurd hj (hfresh r i)
      · rw [hk]
        exact hq.trans hr.symm

end

theorem Separate.single (hempty : ∀ i, kid 0 (mem root i) = none) : Separate kid mem root := by
  have hzero : ∀ {p : Nat → ι} {k : Nat} {t : φ}, tableAt kid mem root p k = some t → k = 0 := by
    intro p k
    induction k with
    | zero => exact fun _ => rfl
    | succ k ih =>
      intro t ht
      obtain ⟨g, hg, ht⟩ := tableAt_succ.mp ht
      obtain rfl := ih hg
      obtain rfl := Option.some.inj hg
      rw [hempty] at ht
      cases ht
  refine ⟨fun h h' => (hzero h).trans (hzero h').symm, fun h _ i hi => ?_⟩
  rw [hzero h] at hi
  cases hi

end Dancy.Lib.Descent
