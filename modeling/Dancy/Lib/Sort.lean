import Mathlib.Data.List.Basic

/-!
# Insertion sort

`qsort` as an insertion sort over a comparison that answers with a sign:
each object moves down the sorted ones before it until one is not above it.
-/

namespace Dancy.Lib

open List

universe u

variable {α : Type u} {compar : α → α → Int} {x : α} {l : List α}

/-- The inner loop: `x` moves down the sorted objects, the last one first. -/
def sink (compar : α → α → Int) (x : α) : List α → List α
  | [] => [x]
  | y :: l => if compar y x ≤ 0 then x :: y :: l else y :: sink compar x l

def qsort (compar : α → α → Int) (l : List α) : List α :=
  (l.foldl (fun sorted x => sink compar x sorted) []).reverse

/-- A comparison that puts all objects in order. -/
structure Compares (compar : α → α → Int) : Prop where
  total : ∀ a b, compar a b ≤ 0 ∨ compar b a ≤ 0
  trans : ∀ a b c, compar a b ≤ 0 → compar b c ≤ 0 → compar a c ≤ 0

theorem sink_perm (compar : α → α → Int) (x : α) (l : List α) : (sink compar x l).Perm (x :: l) := by
  induction l with
  | nil => rfl
  | cons y l ih =>
    rw [sink]
    split
    · exact List.Perm.refl _
    · exact (ih.cons y).trans (List.Perm.swap x y l)

theorem sink_sorted (hc : Compares compar) (h : l.Pairwise fun a b => compar b a ≤ 0) :
    (sink compar x l).Pairwise fun a b => compar b a ≤ 0 := by
  induction l with
  | nil => exact pairwise_singleton _ _
  | cons y l ih =>
    rw [sink]
    obtain ⟨hy, hl⟩ := pairwise_cons.mp h
    by_cases hle : compar y x ≤ 0
    · rw [if_pos hle]
      apply List.Pairwise.cons _ h
      intro z hz
      rcases mem_cons.mp hz with rfl | hz
      · exact hle
      · exact hc.trans _ _ _ (hy z hz) hle
    · rw [if_neg hle]
      apply List.Pairwise.cons _ (ih hl)
      intro z hz
      rcases mem_cons.mp ((sink_perm compar x l).mem_iff.mp hz) with rfl | hz
      · exact (hc.total y z).resolve_left hle
      · exact hy z hz

theorem foldl_sink_perm (compar : α → α → Int) (l sorted : List α) :
    (l.foldl (fun sorted x => sink compar x sorted) sorted).Perm (l ++ sorted) := by
  induction l generalizing sorted with
  | nil => rfl
  | cons x l ih =>
    have hsink := (sink_perm compar x sorted).append_left l
    exact (ih _).trans (hsink.trans perm_middle)

theorem foldl_sink_sorted (hc : Compares compar) (l : List α) {sorted : List α}
    (h : sorted.Pairwise fun a b => compar b a ≤ 0) :
    (l.foldl (fun sorted x => sink compar x sorted) sorted).Pairwise
      fun a b => compar b a ≤ 0 := by
  induction l generalizing sorted with
  | nil => exact h
  | cons x l ih => exact ih (sink_sorted hc h)

theorem qsort_perm (compar : α → α → Int) (l : List α) : (qsort compar l).Perm l := by
  have hfold := foldl_sink_perm compar l []
  rw [append_nil] at hfold
  exact (reverse_perm _).trans hfold

theorem mem_qsort : x ∈ qsort compar l ↔ x ∈ l := (qsort_perm compar l).mem_iff

theorem qsort_sorted (hc : Compares compar) (l : List α) :
    (qsort compar l).Pairwise fun a b => compar a b ≤ 0 :=
  pairwise_reverse.mpr (foldl_sink_sorted hc l List.Pairwise.nil)

/-- Objects of which none is above another keep their order. -/
theorem sink_filter {p : α → Bool} (hp : ∀ a b, p a → p b → compar a b ≤ 0) (l : List α) :
    (sink compar x l).filter p = (x :: l).filter p := by
  induction l with
  | nil => rfl
  | cons y l ih =>
    rw [sink]
    split
    · rfl
    · rename_i hlt
      have hnot : ¬(p y ∧ p x) := fun h => hlt (hp y x h.1 h.2)
      rw [filter_cons, ih, filter_cons, filter_cons, filter_cons]
      split <;> split <;> simp_all

theorem qsort_filter {p : α → Bool} (hp : ∀ a b, p a → p b → compar a b ≤ 0) (l : List α) :
    (qsort compar l).filter p = l.filter p := by
  have hfold : ∀ sorted, (l.foldl (fun sorted x => sink compar x sorted) sorted).filter p =
      (l.filter p).reverse ++ sorted.filter p := by
    induction l with
    | nil => exact fun _ => rfl
    | cons x l ih =>
      intro sorted
      rw [foldl_cons, ih, sink_filter hp, filter_cons, filter_cons]
      split <;> simp
  rw [qsort, filter_reverse, hfold, filter_nil, append_nil, reverse_reverse]

end Dancy.Lib
