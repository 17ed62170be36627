import Mathlib.Algebra.Order.Ring.Nat
import Mathlib.Data.Finite.Prod

/-!
# Runs — labelled steps and the invariant rule

A system is a relation `step s a s'`: in state `s` the action `a` can
lead to `s'`. `Run` is a finite sequence of steps, with the list of the
actions taken, oldest first. The one induction every development needs
(an invariant of the first state that each step preserves holds of the
last one) is done here, once.
-/

namespace Dancy.Lib

universe u v

/-- `Run step s as s'`: the actions `as`, oldest first, lead from `s`
to `s'`. -/
inductive Run {σ : Type u} {α : Type v} (step : σ → α → σ → Prop) :
    σ → List α → σ → Prop where
  | nil (s : σ) : Run step s [] s
  | snoc {s s' s'' : σ} {as : List α} {a : α} :
      Run step s as s' → step s' a s'' → Run step s (as ++ [a]) s''

/-- The steps whose action meets a condition in the state it is taken
from. -/
def Guarded {σ : Type u} {α : Type v} (ok : σ → α → Prop)
    (step : σ → α → σ → Prop) : σ → α → σ → Prop :=
  fun s a s' => ok s a ∧ step s a s'

variable {σ : Type u} {α : Type v} {step step' : σ → α → σ → Prop}

theorem Run.single {s s' : σ} {a : α} (h : step s a s') :
    Run step s [a] s' :=
  Run.snoc (Run.nil s) h

theorem Run.invariant {I : σ → Prop}
    (hstep : ∀ s a s', I s → step s a s' → I s')
    {s s' : σ} {as : List α} (hrun : Run step s as s') (h0 : I s) : I s' := by
  induction hrun with
  | nil => exact h0
  | snoc _ hs ih => exact hstep _ _ _ ih hs

/-- The invariant rule for a property of the actions taken so far and
the state they led to. -/
theorem Run.invariant_trace {I : List α → σ → Prop}
    (hstep : ∀ as s a s', I as s → step s a s' → I (as ++ [a]) s')
    {s s' : σ} {as : List α} (hrun : Run step s as s') (h0 : I [] s) :
    I as s' := by
  induction hrun with
  | nil => exact h0
  | snoc _ hs ih => exact hstep _ _ _ _ ih hs

theorem Run.mono (h : ∀ s a s', step s a s' → step' s a s')
    {s s' : σ} {as : List α} (hrun : Run step s as s') :
    Run step' s as s' := by
  induction hrun with
  | nil => exact Run.nil _
  | snoc _ hs ih => exact Run.snoc ih (h _ _ _ hs)

theorem Run.foldl (f : σ → α → σ) (as : List α) (s : σ) :
    Run (fun s a s' => s' = f s a) s as (as.foldl f s) := by
  induction as using List.reverseRecOn with
  | nil => exact Run.nil s
  | append_singleton as a ih =>
    rw [List.foldl_append]
    exact Run.snoc ih rfl

/-! ## Walks of a partial function -/

variable {next : σ → Option σ}

/-- The state after `n` steps. -/
def walk (next : σ → Option σ) : Nat → σ → Option σ
  | 0, s => some s
  | n + 1, s => (next s).bind (walk next n)

@[simp] theorem walk_zero (s : σ) : walk next 0 s = some s := rfl

theorem walk_succ (n : Nat) (s : σ) : walk next (n + 1) s = (next s).bind (walk next n) := rfl

theorem walk_add (m n : Nat) : ∀ s : σ,
    walk next (m + n) s = (walk next m s).bind (walk next n) := by
  induction m with
  | zero =>
    intro s
    simp
  | succ m ih =>
    intro s
    rw [show m + 1 + n = m + n + 1 by omega, walk_succ, walk_succ]
    cases next s with
    | none => rfl
    | some t => exact ih t

theorem walk_succ_last (n : Nat) (s : σ) : walk next (n + 1) s = (walk next n s).bind next := by
  rw [walk_add]
  congr 1
  funext t
  rw [walk_succ]
  cases next t <;> rfl

theorem walk_none_of_le {m n : Nat} {s : σ} (hle : m ≤ n) (h : walk next m s = none) :
    walk next n s = none := by
  obtain ⟨k, rfl⟩ : ∃ k, n = m + k := ⟨n - m, by omega⟩
  rw [walk_add, h]
  rfl

theorem walk_around {i p : Nat} {s t : σ} (hi : walk next i s = some t)
    (hp : walk next p t = some t) (k : Nat) : walk next (i + k * p) s = some t := by
  induction k with
  | zero => simpa using hi
  | succ k ih =>
    rwa [show i + (k + 1) * p = i + k * p + p by rw [Nat.succ_mul]; omega, walk_add, ih]

theorem walk_ends_iff {s : σ} {S : Set σ} (hS : S.Finite)
    (hmem : ∀ n t, walk next n s = some t → t ∈ S) :
    (∃ n, walk next n s = none) ↔
      ¬ ∃ i j t, i < j ∧ walk next i s = some t ∧ walk next j s = some t := by
  constructor
  · rintro ⟨n, hn⟩ ⟨i, j, t, hij, hi, hj⟩
    obtain ⟨p, rfl⟩ : ∃ p, j = i + (p + 1) := ⟨j - i - 1, by omega⟩
    have hp : walk next (p + 1) t = some t := by
      rwa [walk_add, hi] at hj
    have haround := walk_around hi hp n
    rw [walk_none_of_le (by rw [Nat.mul_succ]; omega) hn] at haround
    cases haround
  · intro hno
    by_contra hends
    -- Otherwise the states of the walk are an infinite part of a finite set.
    have hall : ∀ n, ∃ t, walk next n s = some t := fun n =>
      Option.ne_none_iff_exists'.mp fun h => hends ⟨n, h⟩
    choose f hf using hall
    have hinj : Function.Injective f := by
      intro i j hij
      by_contra hne
      rcases lt_or_gt_of_ne hne with hlt | hgt
      · exact hno ⟨i, j, f i, hlt, hf i, hij ▸ hf j⟩
      · exact hno ⟨j, i, f j, hgt, hf j, hij ▸ hf i⟩
    exact Set.infinite_of_injective_forall_mem hinj (fun n => hmem n (f n) (hf n)) hS

end Dancy.Lib
