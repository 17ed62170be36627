import Mathlib.Tactic.Ring

/-!
# Bit strings

A number as a string of bits, the lowest bit first, and the bits of a list
of bytes.
-/

namespace Dancy.Lib

open List

/-- The `n` lowest bits of a number. -/
def bitsOf : Nat → Nat → List Bool
  | 0, _ => []
  | n + 1, v => decide (v % 2 = 1) :: bitsOf n (v / 2)

def natOf : List Bool → Nat
  | [] => 0
  | x :: xs => x.toNat + 2 * natOf xs

@[simp] theorem length_bitsOf (n : Nat) : ∀ v, (bitsOf n v).length = n := by
  induction n with
  | zero => exact fun _ => rfl
  | succ n ih => simp [bitsOf, ih]

theorem natOf_bitsOf (n : Nat) : ∀ {v : Nat}, v < 2 ^ n → natOf (bitsOf n v) = v := by
  induction n with
  | zero =>
    intro v hv
    exact (Nat.lt_one_iff.mp hv).symm
  | succ n ih =>
    intro v hv
    rw [bitsOf, natOf, ih (by omega)]
    by_cases hodd : v % 2 = 1
    · simp only [hodd, decide_true, Bool.toNat_true]
      omega
    · simp only [hodd, decide_false, Bool.toNat_false]
      omega

theorem bitsOf_natOf (xs : List Bool) : bitsOf xs.length (natOf xs) = xs := by
  induction xs with
  | nil => rfl
  | cons x xs ih =>
    have hhalf : (x.toNat + 2 * natOf xs) / 2 = natOf xs := by
      cases x <;> simp only [Bool.toNat_true, Bool.toNat_false] <;> omega
    have hlow : decide ((x.toNat + 2 * natOf xs) % 2 = 1) = x := by
      cases x <;> simp
    rw [length_cons, natOf, bitsOf, hhalf, hlow, ih]

theorem natOf_append (xs ys : List Bool) :
    natOf (xs ++ ys) = natOf xs + 2 ^ xs.length * natOf ys := by
  induction xs with
  | nil => simp [natOf]
  | cons x xs ih =>
    rw [cons_append, natOf, natOf, ih, length_cons, pow_succ]
    ring_nf

theorem bitsOf_snoc {n v : Nat} (hv : v < 2 ^ n) (x : Bool) :
    bitsOf (n + 1) (v + 2 ^ n * x.toNat) = bitsOf n v ++ [x] := by
  have hnat : natOf (bitsOf n v ++ [x]) = v + 2 ^ n * x.toNat := by
    rw [natOf_append, natOf_bitsOf n hv, length_bitsOf]
    simp [natOf]
  have hlen : (bitsOf n v ++ [x]).length = n + 1 := by simp
  rw [← hnat, ← hlen, bitsOf_natOf]

def bitsOfBytes (bytes : List UInt8) : List Bool := bytes.flatMap fun c => bitsOf 8 c.toNat

@[simp] theorem bitsOfBytes_nil : bitsOfBytes [] = [] := rfl

theorem bitsOfBytes_cons (c : UInt8) (bytes : List UInt8) :
    bitsOfBytes (c :: bytes) = bitsOf 8 c.toNat ++ bitsOfBytes bytes := rfl

theorem bitsOfBytes_snoc (bytes : List UInt8) (c : UInt8) :
    bitsOfBytes (bytes ++ [c]) = bitsOfBytes bytes ++ bitsOf 8 c.toNat := by
  simp [bitsOfBytes]

theorem length_bitsOfBytes (bytes : List UInt8) :
    (bitsOfBytes bytes).length = 8 * bytes.length := by
  induction bytes with
  | nil => rfl
  | cons c bytes ih =>
    rw [bitsOfBytes_cons, length_append, length_bitsOf, ih, length_cons]
    omega

theorem bitsOf_add (m : Nat) : ∀ (n v : Nat),
    bitsOf (m + n) v = bitsOf m v ++ bitsOf n (v >>> m) := by
  induction m with
  | zero => exact fun n v => by rw [zero_add, Nat.shiftRight_zero]; rfl
  | succ m ih =>
    intro n v
    rw [Nat.succ_add, bitsOf, bitsOf, ih, cons_append, ← Nat.shiftRight_one,
      ← Nat.shiftRight_add, add_comm 1 m]

theorem bitsOf_mod (n : Nat) : ∀ v : Nat, bitsOf n (v % 2 ^ n) = bitsOf n v := by
  induction n with
  | zero => exact fun _ => rfl
  | succ n ih =>
    intro v
    have hlow : v % 2 ^ (n + 1) % 2 = v % 2 := by
      simp
    have hhigh : v % 2 ^ (n + 1) / 2 = v / 2 % 2 ^ n := by
      rw [pow_succ, mul_comm, Nat.mod_mul_right_div_self]
    rw [bitsOf, bitsOf, hlow, hhigh, ih]

theorem bitsOf_byte (v : Nat) : bitsOf 8 (UInt8.ofNat v).toNat = bitsOf 8 v :=
  bitsOf_mod 8 v

theorem bitsOfBytes_append (xs ys : List UInt8) :
    bitsOfBytes (xs ++ ys) = bitsOfBytes xs ++ bitsOfBytes ys := by
  simp [bitsOfBytes]

theorem bitsOfBytes_injective : ∀ {xs ys : List UInt8}, bitsOfBytes xs = bitsOfBytes ys → xs = ys := by
  intro xs
  induction xs with
  | nil =>
    intro ys h
    have hlen := congrArg length h
    rw [length_bitsOfBytes, length_bitsOfBytes, length_nil] at hlen
    exact (length_eq_zero_iff.mp (by omega)).symm
  | cons x xs ih =>
    intro ys h
    cases ys with
    | nil =>
      have hlen := congrArg length h
      rw [length_bitsOfBytes, length_bitsOfBytes, length_cons, length_nil] at hlen
      omega
    | cons y ys =>
      obtain ⟨hhead, htail⟩ := append_inj h (by rfl)
      have hnat := congrArg natOf hhead
      rw [natOf_bitsOf 8 x.toNat_lt, natOf_bitsOf 8 y.toNat_lt] at hnat
      rw [UInt8.toNat_inj.mp hnat, ih htail]

theorem and_high_bits {n k x : Nat} (hk : k ≤ n) (hx : x < 2 ^ n) :
    x &&& (2 ^ n - 2 ^ k) = x / 2 ^ k * 2 ^ k := by
  have hmask : 2 ^ n - 2 ^ k = (2 ^ (n - k) - 1) <<< k := by
    rw [Nat.shiftLeft_eq, Nat.sub_mul, Nat.one_mul, ← Nat.pow_add, Nat.sub_add_cancel hk]
  rw [hmask, ← Nat.shiftRight_eq_div_pow, ← Nat.shiftLeft_eq]
  refine Nat.eq_of_testBit_eq fun i => ?_
  by_cases hi : k ≤ i
  · have hadd : k + (i - k) = i := by omega
    by_cases hlow : i - k < n - k
    · simp [hi, hlow]
    · have hzero : x.testBit i = false :=
        Nat.testBit_lt_two_pow (Nat.lt_of_lt_of_le hx (Nat.pow_le_pow_right (by omega) (by omega)))
      simp [hadd, hzero]
  · simp [hi]

end Dancy.Lib
