import Mathlib.Data.Nat.Digits.Defs

/-!
# Numerals

A numeral is read from its first digit on, which is the highest one. The
value so far is multiplied by the base, and the next digit is added; the
product of a machine has overflowed if it does not divide back.
-/

namespace Dancy.Lib

/-- The digits `ds` are read after a numeral of value `v`. -/
def readOn (b v : Nat) (ds : List Nat) : Nat := ds.foldl (fun v d => v * b + d) v

variable {b v : Nat}

@[simp] theorem readOn_nil : readOn b v [] = v := rfl

@[simp] theorem readOn_cons (d : Nat) (ds : List Nat) :
    readOn b v (d :: ds) = readOn b (v * b + d) ds := rfl

theorem readOn_eq (ds : List Nat) : ∀ v : Nat,
    readOn b v ds = v * b ^ ds.length + Nat.ofDigits b ds.reverse := by
  induction ds with
  | nil =>
    simp
  | cons d ds ih =>
    intro v
    rw [readOn_cons, ih, List.reverse_cons, Nat.ofDigits_append, Nat.ofDigits_singleton,
      List.length_reverse, List.length_cons, pow_succ]
    ring_nf

theorem readOn_zero (ds : List Nat) : readOn b 0 ds = Nat.ofDigits b ds.reverse := by
  simp [readOn_eq]

theorem le_readOn (hb : 0 < b) (ds : List Nat) : ∀ v : Nat, v ≤ readOn b v ds := by
  induction ds with
  | nil => simp
  | cons d ds ih =>
    intro v
    have hmul : v ≤ v * b := Nat.le_mul_of_pos_right v hb
    exact Nat.le_trans (Nat.le_trans hmul (Nat.le_add_right _ d)) (ih _)

theorem mul_mod_div_eq_iff {m : Nat} (hb : 0 < b) (v : Nat) : v = v * b % m / b ↔ v * b < m ∨ m = 0 := by
  constructor
  · by_contra hno
    have hm : 0 < m ∧ m ≤ v * b := by omega
    have hlt : v * b % m < b * v := by
      rw [mul_comm b v]
      exact lt_of_lt_of_le (Nat.mod_lt _ hm.1) hm.2
    have hdiv := Nat.div_lt_of_lt_mul hlt
    omega
  · rintro (h | h)
    · rw [Nat.mod_eq_of_lt h, Nat.mul_div_cancel v hb]
    · rw [h, Nat.mod_zero, Nat.mul_div_cancel v hb]

end Dancy.Lib
