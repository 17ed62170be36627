import Mathlib.Data.Finset.Prod

/-!
# Slots that refer to objects

A finite set `S` of slots, each empty or referring to one object. `refs`
is the number of slots that refer to an object; the lemmas say what one
change of a slot, and new empty slots, do to it. Reference counts are
compared with it.
-/

namespace Dancy.Lib.Slots

universe u v

variable {κ : Type u} {ι : Type v} [DecidableEq ι]

/-- The number of slots in `S` that refer to `i`. -/
def refs (S : Finset κ) (f : κ → Option ι) (i : ι) : Nat :=
  (S.filter fun k => f k = some i).card

variable {S S' : Finset κ} {f g : κ → Option ι} {i : ι} {k : κ}

theorem refs_congr (h : ∀ k ∈ S, f k = g k) : refs S f i = refs S g i := by
  unfold refs
  congr 1
  exact Finset.filter_congr fun k hk => by rw [h k hk]

theorem refs_le_card (S : Finset κ) (f : κ → Option ι) (i : ι) : refs S f i ≤ S.card :=
  Finset.card_filter_le _ _

theorem refs_pos (hk : k ∈ S) (h : f k = some i) : 0 < refs S f i :=
  Finset.card_pos.mpr ⟨k, Finset.mem_filter.mpr ⟨hk, h⟩⟩

theorem refs_eq_zero (h : ∀ k ∈ S, f k ≠ some i) : refs S f i = 0 :=
  Finset.card_eq_zero.mpr (Finset.filter_eq_empty_iff.mpr fun _ hk => h _ hk)

theorem refs_erase [DecidableEq κ] (hk : k ∈ S) :
    refs S f i = refs (S.erase k) f i + if f k = some i then 1 else 0 := by
  unfold refs
  conv_lhs => rw [← Finset.insert_erase hk, Finset.filter_insert]
  split
  · simp
  · rfl

theorem refs_change [DecidableEq κ] (hk : k ∈ S) (hsame : ∀ k' ∈ S, k' ≠ k → g k' = f k') :
    refs S g i + (if f k = some i then 1 else 0) =
      refs S f i + (if g k = some i then 1 else 0) := by
  have hrest : refs (S.erase k) g i = refs (S.erase k) f i :=
    refs_congr fun k' hk' => hsame k' (Finset.mem_of_mem_erase hk') (Finset.ne_of_mem_erase hk')
  rw [refs_erase hk (f := f), refs_erase hk, hrest]
  omega

theorem refs_subset (hsub : S ⊆ S') (hempty : ∀ k ∈ S', k ∉ S → f k = none) :
    refs S' f i = refs S f i := by
  unfold refs
  congr 1
  ext k
  simp only [Finset.mem_filter]
  constructor
  · rintro ⟨hk, hf⟩
    refine ⟨?_, hf⟩
    by_contra hno
    rw [hempty k hk hno] at hf
    cases hf
  · rintro ⟨hk, hf⟩
    exact ⟨hsub hk, hf⟩

end Dancy.Lib.Slots
