import Dancy.Archive.Deflate
import Mathlib.Data.Nat.Bitwise

/-!
# Canonical codes (`huffman.c`)

The words of one length are numbers that follow each other, in the order of
their symbols, and the words of the next length begin behind them. `L` are the
lengths of the words of the symbols, and `lengths` the numbers of words of each
length. `huffman_init` puts a symbol at the place of its word, `huffman_table`
gives it this word, and `huffman_fetch` finds the place again.
-/

namespace Dancy.Zip

open Dancy.Lib List Option

/-- The number of words that are shorter than `i`: `off` in `huffman_fetch`. -/
def firstOf (lengths : List Nat) : Nat → Nat
  | 0 => 0
  | 1 => 0
  | i + 2 => lengths.getD (i + 1) 0 + firstOf lengths (i + 1)

/-- The first word of length `i`: `base` in `huffman_fetch`. -/
def firstWord (lengths : List Nat) : Nat → Nat
  | 0 => 0
  | 1 => 0
  | i + 2 => (firstWord lengths (i + 1) + lengths.getD (i + 1) 0) <<< 1

/-- The number of symbols before `j` whose words are as long as that of `j`. -/
def rankIn (L : List Nat) (j : Nat) : Nat := (L.take j).count (L.getD j 0)

def placeOf (L lengths : List Nat) (j : Nat) : Nat :=
  firstOf lengths (L.getD j 0) + rankIn L j

variable {L lengths : List Nat} {i j len : Nat}

theorem firstOf_succ (lengths : List Nat) (h : 1 ≤ len) :
    firstOf lengths (len + 1) = lengths.getD len 0 + firstOf lengths len := by
  cases len with
  | zero => omega
  | succ len => rfl

theorem firstOf_mono (lengths : List Nat) (hij : i ≤ j) :
    firstOf lengths i ≤ firstOf lengths j := by
  induction hij with
  | refl => exact le_rfl
  | @step m hij ih =>
    refine le_trans ih ?_
    cases m with
    | zero => exact le_rfl
    | succ m => exact Nat.le_add_left _ _

theorem firstWord_succ (h : 1 ≤ len) :
    firstWord lengths (len + 1) = 2 * (firstWord lengths len + lengths.getD len 0) := by
  cases len with
  | zero => omega
  | succ len => rw [firstWord, Nat.shiftLeft_eq, Nat.pow_one, mul_comm]

/-! ## `huffman_init` -/

theorem countLengths_spec (L : List Nat) : ∀ {acc lengths : List Nat}, acc.length = 16 →
    countLengths L acc = some lengths → lengths.length = 16 ∧ (∀ x ∈ L, x ≤ 15) ∧
        ∀ m, m < 16 → lengths.getD m 0 = acc.getD m 0 + L.count m := by
  induction L with
  | nil =>
    intro acc lengths hacc h
    cases h
    exact ⟨hacc, by simp, fun m _ => by simp⟩
  | cons len rest ih =>
    intro acc lengths hacc h
    rw [countLengths] at h
    by_cases hbig : len > 15
    · rw [if_pos hbig] at h
      cases h
    rw [if_neg hbig] at h
    obtain ⟨h1, h2, h3⟩ := ih (by rw [length_set, hacc]) h
    refine ⟨h1, forall_mem_cons.2 ⟨not_lt.1 hbig, h2⟩, fun m hm => ?_⟩
    rw [h3 m hm, count_cons, getD_eq_getElem?_getD, getElem?_set,
      getD_eq_getElem?_getD, getD_eq_getElem?_getD]
    by_cases hlen : len = m
    · subst hlen
      rw [if_pos rfl, if_pos (by omega), if_pos (by simp)]
      simp only [getD_some]
      omega
    · simp [if_neg hlen]
theorem offsets_getD (lengths : List Nat) (k : Nat) : k ≤ 14 →
    ((range' 1 k).foldl (fun buf i => buf.set (i + 1) (lengths.getD i 0 + buf.getD i 0))
        (replicate 16 0)).length = 16 ∧
      ∀ len, 1 ≤ len → len ≤ k + 1 →
        ((range' 1 k).foldl (fun buf i => buf.set (i + 1) (lengths.getD i 0 + buf.getD i 0))
          (replicate 16 0)).getD len 0 = firstOf lengths len := by
  induction k with
  | zero =>
    refine fun _ => ⟨rfl, fun len h1 h2 => ?_⟩
    obtain rfl : len = 1 := by omega
    rfl
  | succ k ih =>
    intro hk
    obtain ⟨hlen, hget⟩ := ih (by omega)
    rw [range'_1_concat, foldl_append, foldl_cons, foldl_nil]
    obtain ⟨buf, hbuf⟩ : ∃ buf, buf = (range' 1 k).foldl
      (fun buf i => buf.set (i + 1) (lengths.getD i 0 + buf.getD i 0)) (replicate 16 0) :=
      ⟨_, rfl⟩
    refine ⟨by rw [length_set, hlen], fun len h1 h2 => ?_⟩
    rw [getD_eq_getElem?_getD, getElem?_set]
    by_cases hlast : 1 + k + 1 = len
    · rw [if_pos hlast, if_pos (by omega), getD_some, hget (1 + k) (by omega) (by omega),
        ← hlast, add_comm 1 k]
      rfl
    · rw [if_neg hlast, ← getD_eq_getElem?_getD]
      exact hget len h1 (by omega)

theorem symbolOffsets_getD (lengths : List Nat) {len : Nat} (h1 : 1 ≤ len) (h2 : len < 16) :
    (symbolOffsets lengths).getD len 0 = firstOf lengths len :=
  (offsets_getD lengths 14 le_rfl).2 len h1 (by omega)

theorem symbolOffsets_length (lengths : List Nat) : (symbolOffsets lengths).length = 16 :=
  (offsets_getD lengths 14 le_rfl).1

/-- What `huffman_init` counts. -/
structure Counted (L lengths : List Nat) : Prop where
  size : lengths.length = 16
  le : ∀ x ∈ L, x ≤ 15
  count : ∀ m, m < 16 → lengths.getD m 0 = L.count m

theorem counted (h : countLengths L (replicate 16 0) = some lengths) : Counted L lengths := by
  obtain ⟨hsize, hle, hcount⟩ := countLengths_spec L (length_replicate ..) h
  refine ⟨hsize, hle, fun m hm => ?_⟩
  rw [hcount m hm, getD_eq_getElem?_getD, getElem?_replicate, if_pos hm]
  simp

namespace Counted

section

variable (h : Counted L lengths)
include h

theorem getD_le (hj : j < L.length) : L.getD j 0 ≤ 15 := by
  rw [getD_eq_getElem?_getD, getElem?_eq_getElem hj]
  exact h.le _ (getElem_mem hj)

theorem firstOf_eq : ∀ i, i ≤ 16 →
    firstOf lengths i = L.countP fun x => 1 ≤ x && x < i := by
  intro i
  induction i with
  | zero =>
    simp [firstOf]
  | succ i ih =>
    intro hi
    cases i with
    | zero =>
      have hnone : ∀ x ∈ L, ¬ (decide (1 ≤ x) && decide (x < 0 + 1)) = true := fun x _ => by
        simp only [Bool.and_eq_true, decide_eq_true_eq]
        omega
      exact (countP_eq_zero.2 hnone).symm
    | succ i =>
      rw [firstOf, h.count (i + 1) (by omega), ih (by omega)]
      clear ih h
      induction L with
      | nil => rfl
      | cons x L ih =>
        rw [count_cons, countP_cons, countP_cons, ← ih]
        by_cases hx : x = i + 1
        · subst hx
          simp
          omega
        have hsame : (decide (1 ≤ x) && decide (x < i + 1 + 1)) =
            (decide (1 ≤ x) && decide (x < i + 1)) := by
          have : x < i + 1 + 1 ↔ x < i + 1 := by omega
          simp only [this]
        rw [hsame, if_neg (by simpa using hx)]
        omega

theorem firstOf_le (hi : i ≤ 16) : firstOf lengths i ≤ L.length := by
  rw [h.firstOf_eq i hi]
  exact countP_le_length

end

end Counted

theorem count_take_next (hj : j < L.length) (m : Nat) :
    (L.take (j + 1)).count m = (L.take j).count m + if L.getD j 0 = m then 1 else 0 := by
  rw [take_succ_eq_append_getElem hj, count_append, count_singleton, getD_eq_getElem?_getD,
    getElem?_eq_getElem hj]
  simp

theorem rankIn_lt_count (hj : j < L.length) (hij : j < i) :
    rankIn L j < (L.take i).count (L.getD j 0) := by
  have hle := ((take_prefix_take_left (l := L) hij).sublist).count_le (L.getD j 0)
  rw [count_take_next hj, if_pos rfl] at hle
  exact hle

/-- Each number below the count of a length is the rank of a symbol. -/
theorem exists_rankIn {m : Nat} (n : Nat) : n ≤ L.length → ∀ t < (L.take n).count m,
    ∃ j < n, L.getD j 0 = m ∧ rankIn L j = t := by
  induction n with
  | zero => exact fun _ t ht => absurd ht (by simp)
  | succ n ih =>
    intro hn t ht
    by_cases hlt : t < (L.take n).count m
    · obtain ⟨j, hj, hrest⟩ := ih (by omega) t hlt
      exact ⟨j, by omega, hrest⟩
    rw [count_take_next hn] at ht
    split at ht
    · rename_i hm
      exact ⟨n, Nat.lt_succ_self n, hm, by rw [rankIn, hm]; omega⟩
    · omega

namespace Counted

variable (h : Counted L lengths)
include h

theorem rankIn_lt (hj : j < L.length) : rankIn L j < lengths.getD (L.getD j 0) 0 := by
  rw [h.count _ (by have := h.getD_le hj; omega), ← take_length (l := L)]
  simpa using rankIn_lt_count hj hj

section

variable (hj : j < L.length) (hpos : 1 ≤ L.getD j 0)
include hj hpos

theorem placeOf_lt_firstOf : placeOf L lengths j < firstOf lengths (L.getD j 0 + 1) := by
  have hrank := h.rankIn_lt hj
  rw [placeOf, firstOf_succ _ hpos]
  omega

theorem placeOf_lt : placeOf L lengths j < L.length := by
  have hle := h.getD_le hj
  exact lt_of_lt_of_le (h.placeOf_lt_firstOf hj hpos) (h.firstOf_le (by omega))

theorem placeOf_ne (hij : i < j) (hi : 1 ≤ L.getD i 0) :
    placeOf L lengths i ≠ placeOf L lengths j := by
  have hilt : i < L.length := lt_trans hij hj
  rcases Nat.lt_trichotomy (L.getD i 0) (L.getD j 0) with hlt | heq | hgt
  · have hfirst := h.placeOf_lt_firstOf hilt hi
    have hmono := firstOf_mono lengths (show L.getD i 0 + 1 ≤ L.getD j 0 from hlt)
    have hplace : firstOf lengths (L.getD j 0) ≤ placeOf L lengths j := Nat.le_add_right _ _
    omega
  · have hrank := rankIn_lt_count hilt hij
    rw [heq, ← rankIn] at hrank
    rw [placeOf, placeOf, heq]
    omega
  · have hfirst := h.placeOf_lt_firstOf hj hpos
    have hmono := firstOf_mono lengths (show L.getD j 0 + 1 ≤ L.getD i 0 from hgt)
    have hplace : firstOf lengths (L.getD i 0) ≤ placeOf L lengths i := Nat.le_add_right _ _
    omega

end

end Counted

theorem or_symbol_low (old i : Nat) : (old ||| (i <<< 4)) &&& 0x0F = old &&& 0x0F := by
  have hlow : (i <<< 4) &&& 0x0F = 0 := by
    rw [show (0x0F : Nat) = 2 ^ 4 - 1 from rfl, Nat.and_two_pow_sub_one_eq_mod, Nat.shiftLeft_eq]
    omega
  rw [Nat.and_or_distrib_right, hlow, Nat.or_zero]

theorem or_symbol_high {old : Nat} (h : old >>> 4 = 0) (i : Nat) :
    (old ||| (i <<< 4)) >>> 4 = i := by
  rw [Nat.shiftRight_or_distrib, h, Nat.zero_or, Nat.shiftLeft_shiftRight]

theorem getElem?_getD {xs : List Nat} {i : Nat} (hi : i < xs.length) :
    xs[i]? = some (xs.getD i 0) := by
  rw [getD_eq_getElem?_getD, getElem?_eq_getElem hi]
  rfl

theorem getD_set {α : Type} {xs : List α} {i j : Nat} {x d : α} (hi : i < xs.length) :
    (xs.set i x).getD j d = if i = j then x else xs.getD j d := by
  rw [getD_eq_getElem?_getD, getElem?_set]
  by_cases hij : i = j
  · subst hij
    rw [if_pos rfl, if_pos hi, if_pos rfl]
    rfl
  · simp [if_neg hij]

/-- The first `i` symbols are placed; the lengths stay in the lower bits. -/
structure Placing (L lengths : List Nat) (i : Nat) (s : List Nat × List Nat) : Prop where
  size : s.1.length = L.length
  buf : s.2.length = 16
  kept : ∀ j, j < L.length → s.1.getD j 0 &&& 0x0F = L.getD j 0
  next : ∀ len, 1 ≤ len → len ≤ 15 → s.2.getD len 0 = firstOf lengths len + (L.take i).count len
  placed : ∀ j < i, 1 ≤ L.getD j 0 → s.1.getD (placeOf L lengths j) 0 >>> 4 = j
  blank : ∀ p, (∀ j < i, 1 ≤ L.getD j 0 → placeOf L lengths j ≠ p) → s.1.getD p 0 >>> 4 = 0

section

variable (h : Counted L lengths)
include h

theorem Placing.step (hi : i < L.length) {s : List Nat × List Nat} (hs : Placing L lengths i s) :
    Placing L lengths (i + 1) (placeSymbol s i) := by
  obtain ⟨symbols, buf⟩ := s
  have hsize : symbols.length = L.length := hs.size
  have hbuf : buf.length = 16 := hs.buf
  have hkept : symbols.getD i 0 &&& 0x0F = L.getD i 0 := hs.kept i hi
  have h15 := h.getD_le hi
  rw [placeSymbol]
  dsimp only
  rw [hkept]
  by_cases h0 : L.getD i 0 = 0
  · rw [if_pos h0]
    refine ⟨hs.size, hs.buf, hs.kept, fun m h1 h2 => ?_, fun j hj h1 => ?_, fun p hp => ?_⟩
    · rw [hs.next m h1 h2, count_take_next hi, if_neg (by omega), add_zero]
    · have hne : j ≠ i := by
        rintro rfl
        omega
      exact hs.placed j (by omega) h1
    · exact hs.blank p fun j hj => hp j (by omega)
  have hnext : buf.getD (L.getD i 0) 0 = placeOf L lengths i := hs.next _ (by omega) h15
  have hplace := h.placeOf_lt hi (by omega)
  have hfree : symbols.getD (placeOf L lengths i) 0 >>> 4 = 0 :=
    hs.blank _ fun j hj h1 => h.placeOf_ne hi (by omega) hj h1
  rw [if_neg h0, hnext]
  refine ⟨by rw [length_set, hsize], by rw [length_set, hbuf], fun j hj => ?_,
    fun m h1 h2 => ?_, fun j hj h1 => ?_, fun p hp => ?_⟩
  · rw [getD_set (by omega)]
    split
    · rename_i hkj
      rw [or_symbol_low, hkj]
      exact hs.kept j hj
    · exact hs.kept j hj
  · rw [getD_set (by omega), count_take_next hi]
    by_cases hm : L.getD i 0 = m
    · rw [if_pos hm, if_pos hm, ← hm]
      rfl
    · rw [if_neg hm, if_neg hm, add_zero]
      exact hs.next m h1 h2
  · rw [getD_set (by omega)]
    rcases eq_or_lt_of_le (Nat.le_of_lt_succ hj) with rfl | hlt
    · rw [if_pos rfl, or_symbol_high hfree]
    · rw [if_neg (h.placeOf_ne hi (by omega) hlt h1).symm]
      exact hs.placed j hlt h1
  · rw [getD_set (by omega), if_neg (hp i (Nat.lt_succ_self i) (by omega))]
    exact hs.blank p fun j hj => hp j (by omega)

theorem Placing.run {s : List Nat × List Nat} (hs : Placing L lengths 0 s) (n : Nat) :
    n ≤ L.length → Placing L lengths n ((range n).foldl placeSymbol s) := by
  induction n with
  | zero => exact fun _ => hs
  | succ n ih =>
    intro hn
    rw [range_succ, foldl_append]
    exact (ih (by omega)).step h hn

theorem Placing.start : Placing L lengths 0 (L, symbolOffsets lengths) := by
  have hlow : ∀ j, j < L.length → L.getD j 0 &&& 0x0F = L.getD j 0 := by
    intro j hj
    have hle := h.getD_le hj
    show L.getD j 0 &&& (2 ^ 4 - 1) = L.getD j 0
    rw [Nat.and_two_pow_sub_one_eq_mod]
    omega
  refine ⟨rfl, symbolOffsets_length lengths, hlow, fun m h1 h2 => ?_, nofun, fun p _ => ?_⟩
  · exact symbolOffsets_getD lengths h1 (by omega)
  · by_cases hp : p < L.length
    · have hle := h.getD_le hp
      show L.getD p 0 >>> 4 = 0
      rw [Nat.shiftRight_eq_div_pow]
      omega
    · simp [getD_eq_getElem?_getD, getElem?_eq_none (not_lt.mp hp)]

end

/-- What `huffman_init` leaves: the numbers of words, the symbols at the places of
their words, and whether no word is left over. -/
structure Canonical (L : List Nat) (h : Huffman) : Prop extends Counted L h.lengths where
  symbols_size : h.symbols.length = L.length
  symbols : ∀ j < L.length, 1 ≤ L.getD j 0 → h.symbols.getD (placeOf L h.lengths j) 0 = j
  space : (∃ x ∈ L, x ≠ 0) → ∃ t, codeSpace (h.lengths.drop 1) 1 = some t
  complete : h.completed = true → codeSpace (h.lengths.drop 1) 1 = some 0

theorem huffmanInit_canonical {h : Huffman} (hinit : huffmanInit L = .ok h) : Canonical L h := by
  rw [huffmanInit] at hinit
  rcases hcount : countLengths L (replicate 16 0) with _ | lengths
  · rw [hcount] at hinit
    cases hinit
  have hL := counted hcount
  rw [hcount] at hinit
  dsimp only at hinit
  split at hinit
  · rcases hspace : codeSpace (lengths.drop 1) 1 with _ | t
    · rw [hspace] at hinit
      cases hinit
    rw [hspace] at hinit
    cases hinit
    have hplaced := (Placing.start hL).run hL L.length le_rfl
    refine ⟨hL, by rw [length_map, hplaced.size], fun j hj h1 => ?_, fun _ => ⟨t, hspace⟩,
      fun ht => ?_⟩
    · have hlt := hL.placeOf_lt hj h1
      have hsym := hplaced.placed j hj h1
      rw [← hplaced.size] at hlt
      rw [getD_eq_getElem?_getD, getElem?_map, getElem?_eq_getElem hlt]
      rwa [getD_eq_getElem?_getD, getElem?_eq_getElem hlt] at hsym
    · rw [hspace, of_decide_eq_true ht]
  · rename_i hall
    have hzero : L.count 0 = L.length := by
      rw [← hL.count 0 (by decide)]
      exact not_not.mp hall
    have hnone : ∀ x ∈ L, x = 0 := fun x hx => (count_eq_length.mp hzero x hx).symm
    cases hinit
    refine ⟨hL, rfl, fun j hj h1 => ?_, fun ⟨x, hx, hne⟩ => absurd (hnone x hx) hne,
      nofun⟩
    rw [getD_eq_getElem?_getD, getElem?_eq_getElem hj] at h1
    exact absurd (hnone _ (getElem_mem hj)) (ne_of_gt h1)

/-! ## Words -/

/-- The bits of a word, the highest first. -/
def wordBits (w : Nat) : Nat → List Bool
  | 0 => []
  | n + 1 => w.testBit n :: wordBits w n

theorem bitsOf_reversedBits (w n : Nat) : bitsOf n (reversedBits w n) = wordBits w n := by
  induction n with
  | zero => rfl
  | succ n ih =>
    have hbit : (if w &&& (1 <<< n) ≠ 0 then 1 else 0) = (w.testBit n).toNat := by
      rw [Nat.one_shiftLeft, Nat.and_two_pow]
      cases w.testBit n <;> simp
    have hrev : reversedBits w (n + 1) = 2 * reversedBits w n + (w.testBit n).toNat := by
      rw [reversedBits, range_succ, foldl_append, foldl_cons, foldl_nil, ← reversedBits, hbit,
        Nat.shiftLeft_eq, Nat.pow_one, mul_comm,
        ← Nat.two_pow_add_eq_or_of_lt (i := 1) (Bool.toNat_lt _)]
    rw [bitsOf, hrev, wordBits, ← ih]
    congr 1
    · cases w.testBit n <;> simp
    · congr 1
      have := Bool.toNat_lt (w.testBit n)
      omega

theorem shiftRight_next (w n : Nat) :
    (w >>> (n + 1)) <<< 1 ||| (w.testBit n).toNat = w >>> n := by
  rw [Nat.shiftLeft_eq, mul_comm, ← Nat.two_pow_add_eq_or_of_lt (i := 1) (Bool.toNat_lt _),
    Nat.shiftRight_succ, Nat.toNat_testBit, ← Nat.shiftRight_eq_div_pow]
  exact Nat.div_add_mod (w >>> n) 2

theorem shiftRight_cut {w n val : Nat} {x : Bool} (h : 2 * val + x.toNat = w >>> n) :
    val = w >>> (n + 1) ∧ x = w.testBit n := by
  have hx := Bool.toNat_lt x
  have hbit : (w.testBit n).toNat = (2 * val + x.toNat) % 2 := by
    rw [Nat.toNat_testBit, ← Nat.shiftRight_eq_div_pow, h]
  refine ⟨by rw [Nat.shiftRight_succ, ← h]; omega, ?_⟩
  rw [Nat.mul_add_mod, Nat.mod_eq_of_lt hx] at hbit
  rw [Bool.eq_iff_iff, ← Bool.toNat_eq_one, ← Bool.toNat_eq_one, hbit]

/-- The words of length `i` and those that are shorter leave `s` of the words of this
length. -/
theorem codeSpace_firstWord {t : Int} (hsize : lengths.length = 16)
    (h : codeSpace (lengths.drop 1) 1 = some t) : ∀ i ≤ 15, ∃ s : Int, 0 ≤ s ∧
      codeSpace (lengths.drop (i + 1)) s = some t ∧
        (firstWord lengths (i + 1) : Int) + 2 * s = 2 ^ (i + 1) := by
  intro i
  induction i with
  | zero => exact fun _ => ⟨1, by decide, h, rfl⟩
  | succ i ih =>
    intro hi
    obtain ⟨s, hs, hspace, hword⟩ := ih (by omega)
    rw [drop_eq_getElem_cons (by omega), codeSpace] at hspace
    have hget : lengths[i + 1] = lengths.getD (i + 1) 0 := by
      rw [getD_eq_getElem?_getD, getElem?_eq_getElem (by omega)]
      rfl
    rw [hget] at hspace
    split at hspace
    · cases hspace
    refine ⟨_, by omega, hspace, ?_⟩
    rw [firstWord_succ (Nat.succ_pos i), Int.pow_succ, ← hword]
    push_cast
    ring

theorem firstWord_add_le {t : Int} (hsize : lengths.length = 16)
    (h : codeSpace (lengths.drop 1) 1 = some t) (h1 : 1 ≤ len) (h15 : len ≤ 15) :
    firstWord lengths len + lengths.getD len 0 ≤ 2 ^ len := by
  obtain ⟨s, hs, -, hword⟩ := codeSpace_firstWord hsize h len h15
  rw [firstWord_succ h1, Int.pow_succ] at hword
  have hcast : ((2 ^ len : Nat) : Int) = 2 ^ len := by push_cast; rfl
  omega

theorem firstWord_shift (i : Nat) : 1 ≤ i → ∀ k,
    (firstWord lengths i + lengths.getD i 0) * 2 ^ (k + 1) ≤ firstWord lengths (i + k + 1) := by
  intro hi k
  induction k with
  | zero => rw [firstWord_succ (by omega), mul_comm]; exact le_rfl
  | succ k ih =>
    rw [firstWord_succ (by omega), pow_succ, ← mul_assoc, mul_comm]
    exact Nat.mul_le_mul_left 2 (le_trans ih (Nat.le_add_right _ _))

/-- The words of length `len` are read from the length `i` on. -/
theorem decodeWord_from (h : Huffman) {w len : Nat} (hlo : firstWord h.lengths len ≤ w)
    (hhi : w < firstWord h.lengths len + h.lengths.getD len 0) (k : Nat) : ∀ i left,
    1 ≤ i → i + k = len → decodeWord h (left + k + 1) i (firstWord h.lengths i)
      (firstOf h.lengths i) (w >>> (k + 1)) (wordBits w (k + 1)) =
        some (h.symbols.getD (firstOf h.lengths len + (w - firstWord h.lengths len)) 0, []) := by
  induction k with
  | zero =>
    intro i left _ hik
    obtain rfl : i = len := hik
    rw [wordBits, decodeWord]
    simp only [shiftRight_next w 0, Nat.shiftRight_zero, if_pos hhi]
    rfl
  | succ k ih =>
    intro i left hi hik
    have hshift := @firstWord_shift h.lengths i hi k
    have hle : firstWord h.lengths i + h.lengths.getD i 0 ≤ w >>> (k + 1) := by
      rw [Nat.shiftRight_eq_div_pow, Nat.le_div_iff_mul_le (Nat.two_pow_pos _)]
      rw [add_assoc, hik] at hshift
      exact le_trans hshift hlo
    have hnext := ih (i + 1) left (by omega) (by omega)
    rw [firstWord_succ hi, firstOf_succ _ hi, add_comm (h.lengths.getD i 0)] at hnext
    rw [wordBits, decodeWord]
    simp only [shiftRight_next, if_neg (not_lt.mpr hle)]
    rwa [Nat.shiftLeft_eq, Nat.pow_one, mul_comm _ 2, ← add_assoc]

/-- The word of a symbol. -/
def wordVal (L lengths : List Nat) (j : Nat) : Nat :=
  firstWord lengths (L.getD j 0) + rankIn L j

theorem Canonical.isWord {h : Huffman} (hc : Canonical L h) (hj : j < L.length)
    (h1 : 1 ≤ L.getD j 0) :
    IsWord h j (bitsOf (L.getD j 0) (reversedBits (wordVal L h.lengths j) (L.getD j 0))) := by
  have hrank := hc.rankIn_lt hj
  have h15 := hc.getD_le hj
  have hmem : L.getD j 0 ∈ L := by
    rw [getD_eq_getElem?_getD, getElem?_eq_getElem hj]
    exact getElem_mem hj
  obtain ⟨t, hspace⟩ := hc.space ⟨_, hmem, ne_of_gt h1⟩
  have hfits := firstWord_add_le hc.size hspace h1 h15
  have hword := decodeWord_from h (w := wordVal L h.lengths j) (Nat.le_add_right _ _)
    (Nat.add_lt_add_left hrank _) (L.getD j 0 - 1) 1 (15 - L.getD j 0) le_rfl (by omega)
  have hzero : wordVal L h.lengths j >>> L.getD j 0 = 0 := by
    rw [Nat.shiftRight_eq_div_pow]
    exact Nat.div_eq_of_lt (lt_of_lt_of_le (Nat.add_lt_add_left hrank _) hfits)
  rw [show 15 - L.getD j 0 + (L.getD j 0 - 1) + 1 = 15 by omega, Nat.sub_add_cancel h1, hzero] at hword
  have hsym := hc.symbols j hj h1
  rw [IsWord, bitsOf_reversedBits]
  rw [wordVal, Nat.add_sub_cancel_left, ← wordVal, ← placeOf, hsym] at hword
  exact hword

/-! ## `huffman_table` -/

/-- The table has the words that are shorter than `i`, and the first `t` of length `i`. -/
structure Tabled (L lengths : List Nat) (n i t : Nat) (table : Table) : Prop where
  size : table.length * 2 = n
  words : ∀ j < L.length, 1 ≤ L.getD j 0 → L.getD j 0 < i ∨ L.getD j 0 = i ∧ rankIn L j < t →
    table.getD j (0, 0) = (L.getD j 0, reversedBits (wordVal L lengths j) (L.getD j 0))

/-- A symbol with a word is not in a table of `n` elements. -/
def Outside (L : List Nat) (n : Nat) : Prop := ∃ j < L.length, 1 ≤ L.getD j 0 ∧ n ≤ j * 2

variable {h : Huffman} {n : Nat}

section

variable (hc : Canonical L h)
include hc

theorem Canonical.tableWords_tabled {i : Nat} (h1 : 1 ≤ i) (h15 : i ≤ 15) (left : Nat) :
    ∀ {t : Nat} {table : Table}, left + t = h.lengths.getD i 0 →
      Tabled L h.lengths n i t table →
        (tableWords h n i (firstOf h.lengths i) left t (table, firstWord h.lengths i + t) = none ∧
          Outside L n) ∨
        ∃ table', tableWords h n i (firstOf h.lengths i) left t
            (table, firstWord h.lengths i + t) =
              some (table', firstWord h.lengths i + h.lengths.getD i 0) ∧
          Tabled L h.lengths n i (h.lengths.getD i 0) table' := by
  induction left with
  | zero =>
    intro t table ht htable
    rw [zero_add] at ht
    exact .inr ⟨table, by rw [← ht]; rfl, ht ▸ htable⟩
  | succ left ih =>
    intro t table ht htable
    -- the symbol at this place is the one of this length with rank `t`
    obtain ⟨j, hj, hlen, hrank⟩ := exists_rankIn (m := i) L.length le_rfl t (by
      rw [take_length, ← hc.count i (by omega)]
      omega)
    have hsym : h.symbols.getD (firstOf h.lengths i + t) 0 = j := by
      have hplace := hc.symbols j hj (by omega)
      rwa [placeOf, hlen, hrank] at hplace
    rw [tableWords]
    simp only [hsym]
    split
    · exact .inl ⟨rfl, j, hj, by omega, by omega⟩
    refine ih (by omega) ⟨by rw [length_set, htable.size], fun j' hj' hpos hword => ?_⟩
    have hsize := htable.size
    rw [getD_set (by omega)]
    split
    · rename_i hjj
      rw [← hjj, hlen, wordVal, hlen, hrank]
    · refine htable.words j' hj' hpos (hword.imp_right fun ⟨hlen', hrank'⟩ => ⟨hlen', ?_⟩)
      rcases eq_or_lt_of_le (Nat.le_of_lt_succ hrank') with heq | hlt
      · have hplace' := hc.symbols j' hj' hpos
        rw [placeOf, hlen', heq, hsym] at hplace'
        contradiction
      · exact hlt

theorem Canonical.tableLoop_tabled (left : Nat) : ∀ {i : Nat} {table : Table},
    1 ≤ i → left + i = 16 → Tabled L h.lengths n i 0 table →
      (tableLoop h n left i (firstOf h.lengths i) (table, firstWord h.lengths i) = none ∧
        Outside L n) ∨
      ∃ table', tableLoop h n left i (firstOf h.lengths i) (table, firstWord h.lengths i) =
          some table' ∧ Tabled L h.lengths n 16 0 table' := by
  induction left with
  | zero =>
    intro i table _ hi htable
    obtain rfl : i = 16 := by omega
    exact .inr ⟨table, rfl, htable⟩
  | succ left ih =>
    intro i table h1 hi htable
    rw [tableLoop]
    rcases hc.tableWords_tabled h1 (by omega) _ (add_zero _) htable with
      ⟨hnone, hout⟩ | ⟨table', hsome, htable'⟩
    · rw [add_zero] at hnone
      exact .inl ⟨by rw [hnone], hout⟩
    rw [add_zero] at hsome
    have hnext : Tabled L h.lengths n (i + 1) 0 table' := by
      refine ⟨htable'.size, fun j hj hpos hword => htable'.words j hj hpos ?_⟩
      rcases eq_or_lt_of_le (show L.getD j 0 ≤ i by omega) with heq | hlt
      · exact .inr ⟨heq, heq ▸ hc.rankIn_lt hj⟩
      · exact .inl hlt
    have hrest := ih (by omega) (by omega) hnext
    rw [firstWord_succ h1, firstOf_succ _ h1, add_comm (h.lengths.getD i 0)] at hrest
    simp only [hsome]
    rwa [Nat.shiftLeft_eq, Nat.pow_one, mul_comm _ 2]

/-- A table that is not an error has the word of every symbol. -/
theorem Canonical.huffmanTable_tabled (hn : (h.lengths.drop 1).sum * 2 = n) :
    (huffmanTable h n = .error (-2) ∧ Outside L n) ∨
      ∃ table, huffmanTable h n = .ok table ∧ Tabled L h.lengths n 16 0 table := by
  have hstart : Tabled L h.lengths n 1 0 (replicate (n / 2) (0, 0)) := by
    refine ⟨by rw [length_replicate]; omega, fun j _ hpos hword => ?_⟩
    omega
  rw [huffmanTable, if_neg (not_not.mpr hn)]
  rcases hc.tableLoop_tabled 15 le_rfl rfl hstart with ⟨hnone, hout⟩ | ⟨table, hsome, htable⟩
  · refine .inl ⟨?_, hout⟩
    rw [show tableLoop h n 15 1 0 (replicate (n / 2) (0, 0), 0) = none from hnone]
  · refine .inr ⟨table, ?_, htable⟩
    rw [show tableLoop h n 15 1 0 (replicate (n / 2) (0, 0), 0) = some table from hsome]

theorem Tabled.isWord {table : Table} (htable : Tabled L h.lengths n 16 0 table) (hj : j < L.length)
    (h1 : 1 ≤ L.getD j 0) :
    table.getD j (0, 0) = (L.getD j 0, reversedBits (wordVal L h.lengths j) (L.getD j 0)) ∧
      IsWord h j (wordOf table j) := by
  have hle := hc.getD_le hj
  have hword := htable.words j hj h1 (.inl (by omega))
  exact ⟨hword, by rw [wordOf, hword]; exact hc.isWord hj h1⟩

end

/-- The table is refused for its size or for a symbol outside of it, or each symbol that
has a word has one of its own length, which `huffman_fetch` turns into the symbol again. -/
def WordsRead (L : List Nat) (h : Huffman) (n : Nat) : Prop :=
  (huffmanTable h n = .error (-1) ∧ (h.lengths.drop 1).sum * 2 ≠ n) ∨
    (huffmanTable h n = .error (-2) ∧ Outside L n) ∨
    ∃ table, huffmanTable h n = .ok table ∧ ∀ j < L.length, 1 ≤ L.getD j 0 →
      (wordOf table j).length = L.getD j 0 ∧ ∀ b r, Reading b → b.input = wordOf table j ++ r →
        ∃ b', huffmanFetch h b = ((j : Int), b') ∧ Reading b' ∧ b'.input = r

/-- Every code that `huffman_init` accepts, and every size of the table. -/
theorem huffman_words_read (hinit : huffmanInit L = .ok h) (n : Nat) : WordsRead L h n := by
  have hc := huffmanInit_canonical hinit
  by_cases hn : (h.lengths.drop 1).sum * 2 = n
  · refine .inr ((hc.huffmanTable_tabled hn).imp_right fun ⟨table, hok, htable⟩ => ?_)
    refine ⟨table, hok, fun j hj h1 => ?_⟩
    obtain ⟨hentry, hword⟩ := htable.isWord hc hj h1
    exact ⟨by rw [wordOf, length_bitsOf, hentry], fun b r hb hin => huffmanFetch_word hword hb hin⟩
  · exact .inl ⟨by rw [huffmanTable, if_pos hn], hn⟩

theorem huffman_words_read_four : WordsRead [2, 1, 3, 3]
    ⟨[0, 1, 1, 2, 0, 0, 0, 0, 0, 0, 0, 0, 0, 0, 0, 0], [1, 0, 2, 3], true⟩ 8 :=
  huffman_words_read (by decide) 8

theorem nextBit_nil {b : BitArray} (hb : Reading b) (hin : b.input = []) :
    (nextBit b).1 = none := by
  have hlen := congrArg length hin
  simp only [BitArray.input, length_append, length_bitsOf, length_bitsOfBytes, length_take,
    length_drop, length_nil] at hlen
  rw [Reading] at hb
  rw [nextBit, if_neg (by omega), if_neg (by omega)]

theorem Canonical.fetchSymbol_cases (hc : Canonical L h) (left : Nat) :
    ∀ i val {b : BitArray}, 1 ≤ i → left + i = 16 → firstWord h.lengths i ≤ 2 * val →
      val < 2 ^ (i - 1) → Reading b →
      (∃ (j : Nat) (b' : BitArray) (k : Nat), fetchSymbol h left i (firstWord h.lengths i) (firstOf h.lengths i) val b =
          ((j : Int), b') ∧ j < L.length ∧ L.getD j 0 = i + k ∧
          val = wordVal L h.lengths j >>> (k + 1) ∧ Reading b' ∧
          b.input = wordBits (wordVal L h.lengths j) (k + 1) ++ b'.input) ∨
        ((fetchSymbol h left i (firstWord h.lengths i) (firstOf h.lengths i) val b).1 = -1 ∧
          b.input.length < left) ∨
        (fetchSymbol h left i (firstWord h.lengths i) (firstOf h.lengths i) val b).1 = -2 ∧
          h.completed = false := by
  induction left with
  | zero =>
    intro i val b _ hi hbase hval _
    refine .inr (.inr ⟨rfl, ?_⟩)
    -- the words of a complete code take all numbers, and `val` would be one of them
    by_contra hcompleted
    obtain ⟨s, -, hspace, hword⟩ :=
      codeSpace_firstWord hc.size (hc.complete (Bool.not_eq_false _ ▸ hcompleted)) 15 le_rfl
    rw [drop_eq_nil_of_le (by rw [hc.size]), codeSpace] at hspace
    obtain rfl := some.inj hspace
    rw [Int.mul_zero, Int.add_zero] at hword
    have hlast : firstWord h.lengths 16 = 2 ^ 16 := by exact_mod_cast hword
    obtain rfl : i = 16 := by omega
    omega
  | succ left ih =>
    intro i val b h1 hi hbase hval hb
    cases hin : b.input with
    | nil =>
      refine .inr (.inl ⟨?_, Nat.succ_pos left⟩)
      have hbit := nextBit_nil hb hin
      rw [fetchSymbol]
      rcases hnext : nextBit b with ⟨_ | x, b1⟩
      · rfl
      · rw [hnext] at hbit
        cases hbit
    | cons x xs =>
      obtain ⟨b1, hbit, hb1, hin1⟩ := nextBit_cons hb hin
      have hx := Bool.toNat_lt x
      have hor : (val <<< 1) ||| x.toNat = 2 * val + x.toNat := by
        rw [Nat.shiftLeft_eq, mul_comm, ← Nat.two_pow_add_eq_or_of_lt (i := 1) hx]
      have hpow : 2 ^ i = 2 * 2 ^ (i - 1) := by
        rw [← Nat.pow_succ', Nat.succ_eq_add_one, Nat.sub_add_cancel h1]
      rw [fetchSymbol, hbit]
      simp only [hor]
      by_cases hlt : 2 * val + x.toNat < firstWord h.lengths i + h.lengths.getD i 0
      · obtain ⟨j, hj, hlen, hrank⟩ := exists_rankIn (m := i) L.length le_rfl
          (2 * val + x.toNat - firstWord h.lengths i) (by
            rw [take_length, ← hc.count i (by omega)]
            omega)
        have hsym := hc.symbols j hj (by omega)
        rw [placeOf, hlen, hrank] at hsym
        rw [if_pos hlt, hsym]
        have hword : 2 * val + x.toNat = wordVal L h.lengths j >>> 0 := by
          rw [Nat.shiftRight_zero, wordVal, hlen]
          omega
        obtain ⟨hval', hx'⟩ := shiftRight_cut hword
        exact .inl ⟨j, b1, 0, rfl, hj, hlen, hval', hb1, by rw [hin1, hx']; rfl⟩
      rw [if_neg hlt]
      have hrest := ih (i + 1) (2 * val + x.toNat) (by omega) (by omega)
        (by rw [firstWord_succ h1]; omega) (by rw [Nat.add_sub_cancel]; omega) hb1
      rw [firstWord_succ h1, firstOf_succ _ h1, add_comm (h.lengths.getD i 0)] at hrest
      rw [Nat.shiftLeft_eq, Nat.pow_one, mul_comm _ 2]
      rcases hrest with ⟨j, b', k, hfetch, hj, hlen, hword, hb', hin'⟩ | ⟨hfetch, hshort⟩ | hfetch
      · obtain ⟨hval', hx'⟩ := shiftRight_cut hword
        refine .inl ⟨j, b', k + 1, hfetch, hj, by omega, hval', hb', ?_⟩
        rw [← hin1, hin', hx']
        rfl
      · rw [hin1] at hshort
        exact .inr (.inl ⟨hfetch, Nat.succ_lt_succ hshort⟩)
      · exact .inr (.inr hfetch)

/-- The bits of the word of a symbol. -/
def symbolBits (L lengths : List Nat) (j : Nat) : List Bool :=
  wordBits (wordVal L lengths j) (L.getD j 0)

/-- It takes the bits of the word of a symbol; or less than 15 bits are left or the code
is not complete, and then the input does not begin with the word of any symbol. -/
def FetchesWord (L : List Nat) (h : Huffman) (b : BitArray) : Prop :=
  (∃ (j : Nat) (b' : BitArray), huffmanFetch h b = ((j : Int), b') ∧
      j < L.length ∧ 1 ≤ L.getD j 0 ∧ Reading b' ∧
      b.input = symbolBits L h.lengths j ++ b'.input) ∨
    ((huffmanFetch h b).1 = -1 ∧ b.input.length < 15 ∨
        (huffmanFetch h b).1 = -2 ∧ h.completed = false) ∧
      ∀ j < L.length, 1 ≤ L.getD j 0 → ¬ symbolBits L h.lengths j <+: b.input

/-- `huffman_fetch` on any input. -/
theorem huffman_fetches_word {b : BitArray} (hinit : huffmanInit L = .ok h) (hb : Reading b) :
    FetchesWord L h b := by
  have hc := huffmanInit_canonical hinit
  rcases hc.fetchSymbol_cases 15 1 0 le_rfl rfl le_rfl (by decide) hb with
    ⟨j, b', k, hfetch, hj, hlen, -, hrest⟩ | hfetch
  · refine .inl ⟨j, b', hfetch, hj, by omega, ?_⟩
    rwa [symbolBits, hlen, add_comm 1 k]
  · refine .inr ⟨hfetch, fun j hj h1 ⟨r, hin⟩ => ?_⟩
    have hword := hc.isWord hj h1
    rw [bitsOf_reversedBits] at hword
    obtain ⟨b', hsym, -⟩ := huffmanFetch_word hword hb hin.symm
    have hcode : (huffmanFetch h b).1 = j := by rw [hsym]
    rcases hfetch with ⟨hfetch, -⟩ | ⟨hfetch, -⟩
    · have hminus := hcode.symm.trans hfetch
      omega
    · have hminus := hcode.symm.trans hfetch
      omega

theorem huffman_fetches_word_two : FetchesWord [1, 1]
    ⟨[0, 2, 0, 0, 0, 0, 0, 0, 0, 0, 0, 0, 0, 0, 0, 0], [0, 1], true⟩ (bitarrayInit [1]) :=
  huffman_fetches_word (by decide) (bitarrayInit_input [1]).1

/-! ## The static codes -/

theorem codeSymbols_getElem? (j : Nat) : codeSymbols[j]? =
    if j < 144 then some 8 else if j < 256 then some 9 else if j < 280 then some 7
    else if j < 288 then some 8 else none := by
  simp only [codeSymbols, append_assoc, getElem?_append, length_replicate, getElem?_replicate]
  grind

theorem codeHuffman_symbols (p : Nat) : codeHuffman.symbols[p]? =
    if p < 24 then some (256 + p) else if p < 168 then some (p - 24)
    else if p < 176 then some (p + 112) else if p < 288 then some (p - 32) else none := by
  simp only [codeHuffman, append_assoc, getElem?_append, length_range']
  grind

theorem count_codeSymbols (j m : Nat) : (codeSymbols.take j).count m =
    (if m = 8 then min j 144 + min (j - 280) 8 else 0) + (if m = 9 then min (j - 144) 112 else 0) +
      if m = 7 then min (j - 256) 24 else 0 := by
  simp only [codeSymbols, take_append, take_replicate, count_append, count_replicate,
    length_append, length_replicate, beq_iff_eq]
  grind

theorem placeOf_codeSymbols (p : Nat) (hp : p < 288) : ∃ j < 288, codeHuffman.symbols[p]? = some j ∧
    1 ≤ codeSymbols.getD j 0 ∧ placeOf codeSymbols codeHuffman.lengths j = p := by
  have h7 : firstOf codeHuffman.lengths 7 = 0 := rfl
  have h8 : firstOf codeHuffman.lengths 8 = 24 := rfl
  have h9 : firstOf codeHuffman.lengths 9 = 176 := rfl
  simp only [placeOf, rankIn, count_codeSymbols, codeHuffman_symbols, getD_eq_getElem?_getD,
    codeSymbols_getElem?]
  by_cases h1 : p < 24
  · exact ⟨256 + p, by grind⟩
  by_cases h2 : p < 168
  · exact ⟨p - 24, by grind⟩
  by_cases h3 : p < 176
  · exact ⟨p + 112, by grind⟩
  · exact ⟨p - 32, by grind⟩

theorem huffmanInit_eq {t : Int} (hlengths : countLengths L (replicate 16 0) = some lengths)
    (hne : lengths.getD 0 0 ≠ L.length) (hspace : codeSpace (lengths.drop 1) 1 = some t) :
    huffmanInit L = .ok ⟨lengths, ((range L.length).foldl placeSymbol
      (L, symbolOffsets lengths)).1.map (· >>> 4), t = 0⟩ := by
  simp only [huffmanInit, hlengths, if_pos hne, hspace]

theorem huffmanInit_code : huffmanInit codeSymbols = .ok codeHuffman := by
  have hcount : countLengths codeSymbols (replicate 16 0) = some codeHuffman.lengths := by
    decide +kernel
  have hlen : codeSymbols.length = 288 := by
    simp only [codeSymbols, length_append, length_replicate]
  have hspace : codeSpace (codeHuffman.lengths.drop 1) 1 = some 0 := by
    simp [codeHuffman, codeSpace]
  have hplaced := (Placing.start (counted hcount)).run (counted hcount) 288 (le_of_eq hlen.symm)
  have hsymbols : ((range 288).foldl placeSymbol
      (codeSymbols, symbolOffsets codeHuffman.lengths)).1.map (· >>> 4) = codeHuffman.symbols := by
    refine ext_getElem? fun p => ?_
    by_cases hp : p < 288
    · obtain ⟨j, hj, hsym, h1, hplace⟩ := placeOf_codeSymbols p hp
      have hget := hplaced.placed j hj h1
      have hlt := hp
      rw [← hlen, ← hplaced.size] at hlt
      rw [hplace, getD_eq_getElem?_getD, getElem?_eq_getElem hlt, Option.getD_some] at hget
      rw [getElem?_map, getElem?_eq_getElem hlt, hsym, Option.map_some, hget]
    · rw [codeHuffman_symbols, getElem?_eq_none (by rw [length_map, hplaced.size]; omega)]
      grind
  rw [huffmanInit_eq hcount (by rw [hlen]; decide) hspace, hlen, hsymbols]
  rfl

theorem huffmanInit_dist : huffmanInit distSymbols = .ok distHuffman := by decide

theorem wordsFrom_getElem? (i n val k : Nat) :
    (wordsFrom i n val)[k]? = if k < n then some (i, reversedBits (val + k) i) else none := by
  simp only [wordsFrom, getElem?_map]
  split <;> rename_i h
  · rw [getElem?_range' h, one_mul]
    rfl
  · rw [getElem?_eq_none (by simpa using h)]
    rfl

theorem codeTable_getElem? {j : Nat} (hj : j < 288) : codeTable[j]? = some (codeSymbols.getD j 0,
    reversedBits (wordVal codeSymbols codeHuffman.lengths j) (codeSymbols.getD j 0)) := by
  have h7 : firstWord codeHuffman.lengths 7 = 0 := rfl
  have h8 : firstWord codeHuffman.lengths 8 = 0x30 := rfl
  have h9 : firstWord codeHuffman.lengths 9 = 0x190 := rfl
  simp only [codeTable, getElem?_append, length_append, wordsFrom_getElem?, wordVal, rankIn,
    count_codeSymbols, getD_eq_getElem?_getD, codeSymbols_getElem?,
    show ∀ i n val, (wordsFrom i n val).length = n from fun i n val => by simp [wordsFrom]]
  grind

theorem codeHuffman_tabled : huffmanTable codeHuffman (2 * 288) = .ok codeTable ∧
    Tabled codeSymbols codeHuffman.lengths (2 * 288) 16 0 codeTable := by
  have hlen : codeSymbols.length = 288 := by
    simp only [codeSymbols, length_append, length_replicate]
  rcases (huffmanInit_canonical huffmanInit_code).huffmanTable_tabled (n := 2 * 288) rfl with
    ⟨-, j, hj, -, hout⟩ | ⟨table, hok, htable⟩
  · omega
  have heq : table = codeTable := by
    refine ext_getElem? fun j => ?_
    have hsize := htable.size
    by_cases hj : j < 288
    · have hpos : 1 ≤ codeSymbols.getD j 0 ∧ codeSymbols.getD j 0 < 16 := by
        rw [getD_eq_getElem?_getD, codeSymbols_getElem?]
        grind
      have hword := htable.words j (hlen.symm ▸ hj) hpos.1 (.inl hpos.2)
      rw [codeTable_getElem? hj, ← hword, getD_eq_getElem?_getD, getElem?_eq_getElem (by omega)]
      rfl
    · rw [getElem?_eq_none (by omega), getElem?_eq_none (by simp [codeTable, wordsFrom]; omega)]
  exact ⟨heq ▸ hok, heq ▸ htable⟩

theorem huffmanTable_code : huffmanTable codeHuffman (2 * 288) = .ok codeTable :=
  codeHuffman_tabled.1

theorem huffmanTable_dist : huffmanTable distHuffman (2 * 32) = .ok distTable := by
  decide

theorem codeTable_words (sym : Nat) (hsym : sym < 288) :
    IsWord codeHuffman sym (wordOf codeTable sym) := by
  have hpos : 1 ≤ codeSymbols.getD sym 0 := by
    rw [getD_eq_getElem?_getD, codeSymbols_getElem?]
    grind
  exact (codeHuffman_tabled.2.isWord (huffmanInit_canonical huffmanInit_code)
    (by simp only [codeSymbols, length_append, length_replicate]; exact hsym) hpos).2

theorem distTable_words : ∀ sym < 32, IsWord distHuffman sym (wordOf distTable sym) := by
  decide

end Dancy.Zip
