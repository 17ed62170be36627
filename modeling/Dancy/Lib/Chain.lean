import Mathlib.Data.List.Nodup

/-!
# Chains — linked lists in memory

`next` gives the node after a node, `none` being the null link. A chain
is a piece of such a list: `Chain next a l b` says that following `next`
from the link `a` meets the nodes of `l` in order and then the link `b`.
The lemmas are the edits of a linked list (a link of a node off the
chain, an append, an unlink) and what a null end says about the nodes.
-/

namespace Dancy.Lib

open List Function

universe u

variable {α : Type u}

/-- Following `next` from `a` meets the nodes of `l`, then the link `b`. -/
def Chain (next : α → Option α) : Option α → List α → Option α → Prop
  | a, [], b => a = b
  | a, x :: l, b => a = some x ∧ Chain next (next x) l b

variable {next next' : α → Option α} {a b : Option α} {l l₁ l₂ : List α} {x y : α}

@[simp] theorem chain_nil : Chain next a [] b ↔ a = b := Iff.rfl

@[simp] theorem chain_cons :
    Chain next a (x :: l) b ↔ a = some x ∧ Chain next (next x) l b := Iff.rfl

theorem chain_append :
    Chain next a (l₁ ++ l₂) b ↔ ∃ m, Chain next a l₁ m ∧ Chain next m l₂ b := by
  induction l₁ generalizing a with
  | nil => simp
  | cons x l₁ ih =>
    rw [cons_append, chain_cons, ih]
    constructor
    · rintro ⟨ha, m, h1, h2⟩
      exact ⟨m, ⟨ha, h1⟩, h2⟩
    · rintro ⟨m, ⟨ha, h1⟩, h2⟩
      exact ⟨ha, m, h1, h2⟩

theorem Chain.congr (h : Chain next a l b) (heq : ∀ x ∈ l, next' x = next x) :
    Chain next' a l b := by
  induction l generalizing a with
  | nil => exact h
  | cons x l ih =>
    refine ⟨h.1, ?_⟩
    rw [heq x (by simp)]
    exact ih h.2 fun y hy => heq y (.tail _ hy)

theorem Chain.around (h : Chain next a (l₁ ++ x :: l₂) b) :
    Chain next a l₁ (some x) ∧ Chain next (next x) l₂ b := by
  obtain ⟨m, h1, hm, h2⟩ := chain_append.mp h
  exact ⟨hm ▸ h1, h2⟩

theorem Chain.unique (h1 : Chain next a l₁ none) (h2 : Chain next a l₂ none) : l₁ = l₂ := by
  induction l₁ generalizing a l₂ with
  | nil =>
    cases l₂ with
    | nil => rfl
    | cons y l₂ =>
      rw [chain_cons, h1] at h2
      cases h2.1
  | cons x l₁ ih =>
    cases l₂ with
    | nil =>
      rw [chain_cons, h2] at h1
      cases h1.1
    | cons y l₂ =>
      have hxy : x = y := Option.some.inj (h1.1.symm.trans h2.1)
      subst hxy
      rw [ih h1.2 h2.2]

theorem Chain.nodup (h : Chain next a l none) : l.Nodup := by
  induction l generalizing a with
  | nil => exact nodup_nil
  | cons x l ih =>
    refine nodup_cons.mpr ⟨fun hmem => ?_, ih h.2⟩
    -- from `x` the chain would end after two different numbers of nodes
    obtain ⟨m, m', hl⟩ := append_of_mem hmem
    have hrest := h.2
    rw [hl] at hrest
    have hsame := hrest.around.2.unique h.2
    have hlen := congrArg length hsame
    rw [hl, length_append, length_cons] at hlen
    omega

section Edits

variable [DecidableEq α]

theorem Chain.update (h : Chain next a l b) (hx : x ∉ l) (v : Option α) :
    Chain (Function.update next x v) a l b := by
  refine h.congr fun y hy => ?_
  have hne : y ≠ x := fun heq => hx (heq ▸ hy)
  rw [update_of_ne hne]

theorem Chain.relink (h : Chain next a (l ++ [x]) b) (hx : x ∉ l) (v : Option α) :
    Chain (Function.update next x v) a (l ++ [x]) v := by
  obtain ⟨h1, -⟩ := h.around
  refine chain_append.mpr ⟨some x, h1.update hx v, rfl, ?_⟩
  simp

theorem Chain.append_node {v : Option α} (h : Chain next a (l ++ [x]) b) (hx : x ∉ l)
    (hy : next y = v) (hyx : y ∉ l ++ [x]) :
    Chain (Function.update next x (some y)) a (l ++ [x] ++ [y]) v := by
  refine chain_append.mpr ⟨some y, h.relink hx (some y), rfl, ?_⟩
  have hne : y ≠ x := fun heq => hyx (by simp [heq])
  rw [chain_nil, update_of_ne hne, hy]

theorem Chain.unlink (h : Chain next a (l₁ ++ x :: y :: l₂) b)
    (hnodup : (l₁ ++ x :: y :: l₂).Nodup) :
    Chain (Function.update next x (next y)) a (l₁ ++ x :: l₂) b := by
  obtain ⟨h1, h2⟩ := h.around
  rw [nodup_append, nodup_cons] at hnodup
  obtain ⟨-, ⟨hx, -⟩, hdisj⟩ := hnodup
  have hx1 : x ∉ l₁ := fun hin => hdisj x hin x (by simp) rfl
  have hx2 : x ∉ l₂ := fun hin => hx (.tail _ hin)
  refine chain_append.mpr ⟨some x, h1.update hx1 _, rfl, ?_⟩
  rw [update_self]
  exact h2.2.update hx2 _

end Edits

end Dancy.Lib
