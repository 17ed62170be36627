import Mathlib.Algebra.Order.Ring.Nat
import Mathlib.Data.List.Basic

/-!
# A tape in a circle of cells

Letters are written one behind the other into `N` cells, around and around.
A cell holds the last letter that came to it, as long as the tape has not
come to the same cell again. The next cell may be blanked: then every cell
that is not blank belongs to the last `N - 1` letters of the tape.
-/

namespace Dancy.Lib

universe u

variable {α : Type u} {N : Nat} {blank : α} {tape : List α} {cells : Nat → α}

structure Tape (N : Nat) (blank : α) (tape : List α) (cells : Nat → α) : Prop where
  held : ∀ q (h : q < tape.length), tape.length < q + N → cells (q % N) = tape[q]
  covered : ∀ j < N, j ≠ tape.length % N → cells j ≠ blank →
    ∃ q < tape.length, tape.length < q + N ∧ q % N = j

theorem mod_ne_mod {q r N : Nat} (h : q < r) (hr : r < q + N) : q % N ≠ r % N := by
  have hq := Nat.div_add_mod q N
  have hr' := Nat.div_add_mod r N
  rcases Nat.lt_trichotomy (q / N) (r / N) with hlt | hdiv | hgt
  · have : N * (q / N) + N ≤ N * (r / N) := by
      exact Nat.mul_le_mul_left N hlt
    omega
  · rw [hdiv] at hq
    omega
  · have := Nat.div_le_div_right (c := N) (le_of_lt h)
    omega

namespace Tape

theorem empty (N : Nat) (blank : α) : Tape N blank [] fun _ => blank where
  held q h _ := absurd h (Nat.not_lt_zero q)
  covered _ _ _ h := absurd rfl h

section

variable (h : Tape N blank tape cells)
include h

theorem put (hN : 1 < N) (x : α) :
    Tape N blank (tape ++ [x]) (Function.update cells (tape.length % N) x) where
  held q hq hnear := by
    rw [List.length_append, List.length_singleton] at hq hnear
    by_cases hlast : q = tape.length
    · subst hlast
      simp
    · have hlt : q < tape.length := by omega
      rw [Function.update_of_ne (mod_ne_mod hlt (by omega)), List.getElem_append_left hlt]
      exact h.held q hlt (by omega)
  covered j hj hne hcell := by
    rw [List.length_append, List.length_singleton] at hne ⊢
    by_cases hlast : j = tape.length % N
    · exact ⟨tape.length, by omega, by omega, hlast.symm⟩
    rw [Function.update_of_ne hlast] at hcell
    obtain ⟨q, hq, hnear, rfl⟩ := h.covered j hj hlast hcell
    refine ⟨q, by omega, ?_, rfl⟩
    by_contra hfar
    refine hne ?_
    rw [show tape.length + 1 = q + N by omega, Nat.add_mod_right]

theorem close :
    Tape N blank tape (Function.update cells (tape.length % N) blank) where
  held q hq hnear := by
    rw [Function.update_of_ne (mod_ne_mod hq hnear)]
    exact h.held q hq hnear
  covered j hj hne hcell := by
    rw [Function.update_of_ne hne] at hcell
    exact h.covered j hj hne hcell

/-- With the next cell blank, a cell that is not blank holds a letter near the
end of the tape. -/
theorem covered_closed (hclosed : cells (tape.length % N) = blank) {j : Nat} (hj : j < N)
    (hcell : cells j ≠ blank) :
    ∃ q, ∃ hq : q < tape.length, tape.length < q + N ∧ q % N = j ∧ cells j = tape[q] := by
  have hne : j ≠ tape.length % N := by
    rintro rfl
    exact hcell hclosed
  obtain ⟨q, hq, hnear, rfl⟩ := h.covered j hj hne hcell
  exact ⟨q, hq, hnear, rfl, h.held q hq hnear⟩

end

end Tape

end Dancy.Lib
