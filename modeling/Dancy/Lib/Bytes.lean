import Mathlib.Tactic.Ring

/-!
# Buffers of bytes

A buffer gives the byte at each place. Ranges are copied and filled, and words
are stored with the low byte first.
-/

namespace Dancy.Lib

abbrev Bytes := Nat → UInt8

namespace Bytes

/-- The `n` bytes of `src` from `j` on, copied to `i`. -/
def copy (dst : Bytes) (i : Nat) (src : Bytes) (j n : Nat) : Bytes :=
  fun k => if i ≤ k ∧ k < i + n then src (j + (k - i)) else dst k

/-- `n` bytes from `i` on become `c`. -/
def fill (dst : Bytes) (i : Nat) (c : UInt8) (n : Nat) : Bytes :=
  fun k => if i ≤ k ∧ k < i + n then c else dst k

/-- The word of two bytes at `i`. -/
def word (b : Bytes) (i : Nat) : Nat := (b i).toNat + 256 * (b (i + 1)).toNat

/-- The word of four bytes at `i`. -/
def dword (b : Bytes) (i : Nat) : Nat := b.word i + 65536 * b.word (i + 2)

/-- `v` stored as a byte. -/
def setByte (b : Bytes) (i v : Nat) : Bytes := fun k => if k = i then UInt8.ofNat v else b k

/-- The low half of `v` stored as two bytes. -/
def setWord (b : Bytes) (i v : Nat) : Bytes := (b.setByte i v).setByte (i + 1) (v / 256)

/-- `v` stored as four bytes. -/
def setDword (b : Bytes) (i v : Nat) : Bytes := (b.setWord i v).setWord (i + 2) (v / 65536)

variable {b b' dst src : Bytes} {i j k n v : Nat} {c : UInt8}

theorem copy_inside (h : i ≤ k) (h' : k < i + n) : dst.copy i src j n k = src (j + (k - i)) :=
  if_pos ⟨h, h'⟩

theorem copy_outside (h : k < i ∨ i + n ≤ k) : dst.copy i src j n k = dst k :=
  if_neg (by omega)

theorem copy_zero : dst.copy i src j 0 = dst := funext fun k => copy_outside (by omega)

theorem fill_outside (h : k < i ∨ i + n ≤ k) : dst.fill i c n k = dst k := if_neg (by omega)

/-! ## Words -/

@[simp] theorem setByte_self : b.setByte i v i = UInt8.ofNat v := if_pos rfl

theorem setByte_of_ne (h : k ≠ i) : b.setByte i v k = b k := if_neg h

theorem setWord_of_ne (h : k ≠ i) (h' : k ≠ i + 1) : b.setWord i v k = b k := by
  rw [setWord, setByte_of_ne h', setByte_of_ne h]

theorem setDword_of_ne (h : k < i ∨ i + 4 ≤ k) : b.setDword i v k = b k := by
  rw [setDword, setWord_of_ne (by omega) (by omega), setWord_of_ne (by omega) (by omega)]

theorem word_lt : b.word i < 65536 := by
  have h0 := (b i).toNat_lt
  have h1 := (b (i + 1)).toNat_lt
  unfold word
  omega

theorem dword_lt : b.dword i < 4294967296 := by
  have h0 : b.word i < 65536 := word_lt
  have h1 : b.word (i + 2) < 65536 := word_lt
  unfold dword
  omega

theorem word_congr (h0 : b i = b' j) (h1 : b (i + 1) = b' (j + 1)) : b.word i = b'.word j := by
  rw [word, word, h0, h1]

theorem dword_congr (h : ∀ k, k < 4 → b (i + k) = b' (j + k)) : b.dword i = b'.dword j := by
  have h0 : b.word i = b'.word j := word_congr (h 0 (by omega)) (h 1 (by omega))
  have h1 : b.word (i + 2) = b'.word (j + 2) := word_congr (h 2 (by omega)) (h 3 (by omega))
  rw [dword, dword, h0, h1]

theorem word_setWord : (b.setWord i v).word i = v % 65536 := by
  have h0 : b.setWord i v i = UInt8.ofNat v := by
    rw [setWord, setByte_of_ne (by omega), setByte_self]
  have h1 : b.setWord i v (i + 1) = UInt8.ofNat (v / 256) := setByte_self
  rw [word, h0, h1, UInt8.toNat_ofNat', UInt8.toNat_ofNat']
  omega

theorem word_setWord_of_ne (h : j + 2 ≤ i ∨ i + 2 ≤ j) : (b.setWord i v).word j = b.word j :=
  word_congr (setWord_of_ne (by omega) (by omega)) (setWord_of_ne (by omega) (by omega))

theorem dword_setDword : (b.setDword i v).dword i = v % 4294967296 := by
  have h0 : (b.setDword i v).word i = v % 65536 := by
    rw [setDword, word_setWord_of_ne (by omega), word_setWord]
  have h1 : (b.setDword i v).word (i + 2) = v / 65536 % 65536 := word_setWord
  rw [dword, h0, h1]
  omega

end Bytes

end Dancy.Lib
