import Mathlib.Data.List.DropRight
import Mathlib.Data.Nat.Digits.Defs

/-!
# Layout of a field

A field of some width holds a first part, a sign or a prefix, and a main
part. What is missing is filled with blanks on the left or the right, or with
noughts between the parts.
-/

namespace Dancy.Lib

open List

variable {α : Type*}

inductive Fill where
  | left
  | right
  | inside
deriving DecidableEq

/-- The field of width `w`. -/
def layout (blank nought : α) (fill : Fill) (w : Nat) (pre main : List α) : List α :=
  let room := w - (pre.length + main.length)
  match fill with
  | .left => replicate room blank ++ pre ++ main
  | .right => pre ++ main ++ replicate room blank
  | .inside => pre ++ replicate room nought ++ main

/-- At least `p` elements, noughts in front. -/
def atLeast (nought : α) (p : Nat) (l : List α) : List α :=
  replicate (p - l.length) nought ++ l

variable {blank nought : α} {fill : Fill} {w : Nat} {pre main : List α}

@[simp] theorem atLeast_length (p : Nat) (l : List α) :
    (atLeast nought p l).length = max p l.length := by
  rw [atLeast, length_append, length_replicate]
  omega

theorem layout_length : (layout blank nought fill w pre main).length =
    max w (pre.length + main.length) := by
  cases fill <;> simp only [layout, length_append, length_replicate] <;> omega

theorem layout_of_le (h : w ≤ pre.length + main.length) :
    layout blank nought fill w pre main = pre ++ main := by
  have hroom : w - (pre.length + main.length) = 0 := by omega
  cases fill <;> simp [layout, hroom]

/-- Two widths give one field just when they are equal, or none has room. -/
theorem layout_width_iff {w' : Nat} (h : w' ≤ w) :
    layout blank nought fill w' pre main = layout blank nought fill w pre main ↔
      w' = w ∨ w ≤ pre.length + main.length := by
  constructor
  · intro heq
    have := congrArg length heq
    rw [layout_length, layout_length] at this
    omega
  · rintro (rfl | hle)
    · rfl
    · rw [layout_of_le hle, layout_of_le (by omega)]

theorem layout_join (blank nought : α) (w : Nat) (pre main : List α) (hf : fill ≠ .inside) :
    layout blank nought fill w [] (pre ++ main) = layout blank nought fill w pre main := by
  rcases fill with _ | _ | _
  · simp [layout]
  · simp [layout]
  · exact absurd rfl hf

theorem layout_right_last (h : pre.length + main.length < w) :
    (layout blank nought .right w pre main).getLast? = some blank := by
  obtain ⟨k, hk⟩ : ∃ k, w - (pre.length + main.length) = k + 1 :=
    ⟨w - (pre.length + main.length) - 1, by omega⟩
  rw [layout, hk, replicate_succ', ← append_assoc, getLast?_concat]

theorem layout_last (hf : fill ≠ .right) (hmain : main ≠ []) :
    (layout blank nought fill w pre main).getLast? = main.getLast? := by
  obtain ⟨c, hc⟩ := Option.isSome_iff_exists.mp (getLast?_isSome.mpr hmain)
  rcases fill with _ | _ | _
  · rw [layout, getLast?_append, hc]
    rfl
  · exact absurd rfl hf
  · rw [layout, getLast?_append, hc]
    rfl

/-- What a field holds of the elements that are neither blanks nor noughts. -/
theorem filter_layout {p : α → Bool} (hb : p blank = false) (hn : p nought = false) :
    (layout blank nought fill w pre main).filter p = pre.filter p ++ main.filter p := by
  cases fill <;> simp [layout, hb, hn]

/-- What a field holds of the elements that are not blank, when it is not
filled with noughts. -/
theorem filter_layout_blank {p : α → Bool} (hb : p blank = false) (hf : fill ≠ .inside) :
    (layout blank nought fill w pre main).filter p = pre.filter p ++ main.filter p := by
  cases fill with
  | inside => exact absurd rfl hf
  | left | right => simp [layout, hb]

theorem reverse_layout_right (w : Nat) (l : List α) :
    (layout blank nought .right w [] l).reverse = layout blank nought .left w [] l.reverse := by
  simp [layout]

variable [DecidableEq α]

/-- A text without the blanks on the side that a field is filled on. -/
def trim (blank : α) : Fill → List α → List α
  | .right, l => l.rdropWhile (· = blank)
  | _, l => l.dropWhile (· = blank)

theorem replicate_dropWhile (blank : α) (l : List α) :
    replicate (l.length - (l.dropWhile (· = blank)).length) blank ++
      l.dropWhile (· = blank) = l := by
  have hsplit : (l.takeWhile (· = blank)).length + (l.dropWhile (· = blank)).length =
      l.length := by
    rw [← length_append, takeWhile_append_dropWhile]
  have hall : l.takeWhile (· = blank) = replicate (l.takeWhile (· = blank)).length blank :=
    eq_replicate_of_mem fun c hc => by simpa using mem_takeWhile_imp hc
  simp [show l.length - (l.dropWhile (· = blank)).length =
    (l.takeWhile (· = blank)).length by omega, ← hall]

theorem dropWhile_replicate (blank : α) (k : Nat) (l : List α) :
    (replicate k blank ++ l).dropWhile (· = blank) = l.dropWhile (· = blank) :=
  dropWhile_append_of_pos fun c hc => by simpa using eq_of_mem_replicate hc

/-- Texts of one length are equal when they are so without the blanks in
front. -/
theorem eq_iff_dropWhile (blank : α) (a b : List α) :
    a = b ↔ a.length = b.length ∧ a.dropWhile (· = blank) = b.dropWhile (· = blank) := by
  constructor
  · rintro rfl
    simp
  · rintro ⟨hlen, hdrop⟩
    rw [← replicate_dropWhile blank a, ← replicate_dropWhile blank b, hlen, hdrop]

/-- Two fields of texts are equal when they have one length, and the texts
differ by blanks on the side that is filled. -/
theorem layout_text_iff (hf : fill ≠ .inside) (w w' : Nat) (a b : List α) :
    layout blank nought fill w [] a = layout blank nought fill w' [] b ↔
      max w a.length = max w' b.length ∧ trim blank fill a = trim blank fill b := by
  have hleft : ∀ a b : List α,
      layout blank nought .left w [] a = layout blank nought .left w' [] b ↔
        max w a.length = max w' b.length ∧ a.dropWhile (· = blank) = b.dropWhile (· = blank) := by
    intro a b
    rw [eq_iff_dropWhile blank, layout_length, layout_length, layout, layout,
      append_assoc, append_assoc, dropWhile_replicate, dropWhile_replicate]
    simp
  rcases fill with _ | _ | _
  · exact hleft a b
  · rw [← reverse_inj, reverse_layout_right, reverse_layout_right, hleft,
      length_reverse, length_reverse, trim, trim, rdropWhile, rdropWhile,
      reverse_inj]
  · exact absurd rfl hf

end Dancy.Lib
