import Dancy.Lib.Numeral
import Dancy.Libc.Alloc

/-!
# Strings to integers (`strtoll.c`, `strtol.c`, `strtoull.c`, `_ull.c`)

A string is the list of the bytes behind the pointer; what is read past its
end is the zero that ends it. A pointer into the string is an offset. Bytes
from 128 on are negative characters: no comparison below holds of them.
-/

namespace Dancy.Libc

open Dancy.Lib List

/-- The values of `errno` that a conversion sets. -/
inductive ConvErrno where
  | EINVAL
  | ERANGE
deriving DecidableEq

def isspace (c : UInt8) : Bool :=
  c = 32 || c = 12 || c = 10 || c = 13 || c = 9 || c = 11

def digitOf (c : UInt8) : Option Nat :=
  if 48 ≤ c.toNat ∧ c.toNat ≤ 57 then some (c.toNat - 48)
  else if 65 ≤ c.toNat ∧ c.toNat ≤ 90 then some (c.toNat - 65 + 10)
  else if 97 ≤ c.toNat ∧ c.toNat ≤ 122 then some (c.toNat - 97 + 10)
  else none

/-! ## The code -/

/-- `r_errno` and `value`; no `errno` is the zero. -/
structure Ull where
  rErrno : Option ConvErrno
  value : Nat

def ullongMax : Nat := 2 ^ 64 - 1

/-- The end of the loop body, for the digit `c`. -/
def ullDigit (base : Nat) (s : Ull) (c : Nat) : Ull :=
  if s.rErrno = some .ERANGE then s
  else
    let u := s.value * base % 2 ^ 64
    if s.value ≠ u / base then ⟨some .ERANGE, ullongMax⟩
    else if u > ullongMax - c then ⟨some .ERANGE, ullongMax⟩
    else ⟨none, u + c⟩

/-- The loop: how many characters it passes, and what they give. -/
def ullLoop (base : Nat) : (str : List UInt8) → Ull → Nat × Ull
  | [], s => (0, s)
  | c :: str, s =>
    match digitOf c with
    | none => (0, s)
    | some d =>
      if d ≥ base then (0, s)
      else ((ullLoop base str (ullDigit base s d)).1 + 1, (ullLoop base str (ullDigit base s d)).2)

/-- `hex_prefix`. -/
def hexStart (str : List UInt8) : Bool :=
  str.getD 0 0 = 48 && (str.getD 1 0 = 120 || str.getD 1 0 = 88)

def ullBase (str : List UInt8) (base : Nat) : Nat :=
  if base = 0 then if hexStart str then 16 else if str.getD 0 0 ≠ 48 then 10 else 8 else base

def ullSkip (str : List UInt8) (base : Nat) : Nat :=
  if ullBase str base = 16 && hexStart str then 2 else 0

/-- `__dancy_ull`: what it returns and stores, and the offset of `*end`. -/
def dancyUll (str : List UInt8) (base : Nat) : Ull × Nat :=
  let skip := ullSkip str base
  let s := if 2 ≤ ullBase str base ∧ ullBase str base ≤ 36 then
      ullLoop (ullBase str base) (str.drop skip) ⟨some .EINVAL, 0⟩
    else (0, ⟨some .EINVAL, 0⟩)
  if s.2.rErrno = some .EINVAL ∧ hexStart str then
    (⟨none, s.2.value⟩, skip + s.1 - if ullBase str base = 16 then 1 else 0)
  else (s.2, skip + s.1)

/-- What a conversion returns, the offset of `*endptr`, and `errno` where it
is set. -/
structure Converted where
  value : Int
  endptr : Nat
  errno : Option ConvErrno
deriving DecidableEq

/-- The characters up to the digits: white space and the sign. -/
def signAt (str : List UInt8) : Nat := (str.takeWhile isspace).length

def digitsAt (str : List UInt8) : Nat :=
  if str.getD (signAt str) 0 = 43 ∨ str.getD (signAt str) 0 = 45 then signAt str + 1 else signAt str

/-- The body of both functions, for a type of `bits` bits. -/
def strtoSigned (bits : Nat) (str : List UInt8) (base : Nat) : Converted :=
  let m : Nat := 2 ^ (bits - 1)
  let r := dancyUll (str.drop (digitsAt str)) base
  let stop := digitsAt str + r.2
  if r.1.rErrno = some .EINVAL then ⟨0, 0, some .EINVAL⟩
  else if r.1.rErrno = some .ERANGE then
    ⟨if str.getD (signAt str) 0 = 45 then -m else m - 1, stop, some .ERANGE⟩
  else if str.getD (signAt str) 0 = 45 then
    if r.1.value > m then ⟨-m, stop, some .ERANGE⟩
    else if r.1.value = m then ⟨-m, stop, none⟩
    else ⟨-r.1.value, stop, none⟩
  else if r.1.value > m - 1 then ⟨m - 1, stop, some .ERANGE⟩
  else ⟨r.1.value, stop, none⟩

def strtoll (str : List UInt8) (base : Nat) : Converted := strtoSigned 64 str base

/-- `strtol`; a `long` has the size of a pointer. -/
def strtol (a : Arch) (str : List UInt8) (base : Nat) : Converted :=
  strtoSigned (8 * a.word) str base

/-- `strtoull`: a minus negates modulo `2^64`. -/
def strtoull (str : List UInt8) (base : Nat) : Converted :=
  let r := dancyUll (str.drop (digitsAt str)) base
  let stop := digitsAt str + r.2
  if r.1.rErrno = some .EINVAL then ⟨0, 0, some .EINVAL⟩
  else if r.1.rErrno = some .ERANGE then ⟨ullongMax, stop, some .ERANGE⟩
  else if str.getD (signAt str) 0 = 45 then ⟨((ullongMax - r.1.value + 1) % 2 ^ 64 : Nat), stop, none⟩
  else ⟨r.1.value, stop, none⟩

/-- The digits of a base at the start of a string, as many as there are. -/
def digitRun (b : Nat) : List UInt8 → List Nat
  | [] => []
  | c :: str =>
    match digitOf c with
    | none => []
    | some d => if d < b then d :: digitRun b str else []

/-- `0x` counts if the base allows it and a hexadecimal digit follows. -/
def hexAllowed (base : Nat) (str : List UInt8) : Bool :=
  (base = 0 || base = 16) && hexStart str && digitRun 16 (str.drop 2) ≠ []

def baseOf (base : Nat) (str : List UInt8) : Nat :=
  if base ≠ 0 then base
  else if hexAllowed base str then 16
  else if str.getD 0 0 = 48 then 8
  else 10

/-- The offset of the digits, after `0x`, and the digits. -/
def skipped (base : Nat) (str : List UInt8) : Nat := if hexAllowed base str then 2 else 0

def subjectDigits (base : Nat) (str : List UInt8) : List Nat :=
  digitRun (baseOf base str) (str.drop (skipped base str))

def saturate (low high v : Int) : Int × Option ConvErrno :=
  if v < low then (low, some .ERANGE) else if v > high then (high, some .ERANGE) else (v, none)

def strtoReference (low high : Int) (str : List UInt8) (base : Nat) : Converted :=
  let subject := str.drop (digitsAt str)
  let ds := subjectDigits base subject
  let n : Nat := Nat.ofDigits (baseOf base subject) ds.reverse
  let v := saturate low high (if str.getD (signAt str) 0 = 45 then -n else n)
  if ds = [] then ⟨0, 0, some .EINVAL⟩
  else ⟨v.1, digitsAt str + skipped base subject + ds.length, v.2⟩

/-! ## The digits -/

variable {base : Nat} {str : List UInt8}

variable {b d : Nat} {c : UInt8} {s : Ull}

theorem digitRun_cons (hc : digitOf c = some d) (hlt : d < b) (str : List UInt8) :
    digitRun b (c :: str) = d :: digitRun b str := by
  rw [digitRun, hc]
  exact if_pos hlt

theorem digitRun_stop (hc : ∀ d, digitOf c = some d → b ≤ d) (str : List UInt8) :
    digitRun b (c :: str) = [] := by
  rw [digitRun]
  cases h : digitOf c with
  | none => rfl
  | some d => exact if_neg (not_lt.2 (hc d h))

theorem ullDigit_eq (hb : 0 < base) (hs : s.rErrno ≠ some .ERANGE) (hd : d < 2 ^ 64) :
    ullDigit base s d = if s.value * base + d < 2 ^ 64 then ⟨none, s.value * base + d⟩
      else ⟨some .ERANGE, ullongMax⟩ := by
  have hiff := mul_mod_div_eq_iff (m := 2 ^ 64) hb s.value
  rw [ullDigit, if_neg hs]
  unfold ullongMax
  by_cases hmul : s.value * base < 2 ^ 64
  · rw [if_neg (not_not_intro (hiff.2 (.inl hmul))), Nat.mod_eq_of_lt hmul]
    by_cases hsum : s.value * base + d < 2 ^ 64
    · rw [if_neg (by omega), if_pos hsum]
    · rw [if_pos (by omega), if_neg hsum]
  · have hne : s.value ≠ s.value * base % 2 ^ 64 / base := fun h => by
      rcases hiff.1 h with h | h
      · exact hmul h
      · cases h
    rw [if_pos hne, if_neg (by omega)]

theorem ullLoop_cons (hc : digitOf c = some d) (hlt : d < base) (str : List UInt8) (s : Ull) :
    ullLoop base (c :: str) s =
      ((ullLoop base str (ullDigit base s d)).1 + 1, (ullLoop base str (ullDigit base s d)).2) := by
  rw [ullLoop, hc]
  exact if_neg (not_le.2 hlt)

theorem ullLoop_stop (hc : ∀ d, digitOf c = some d → base ≤ d) (str : List UInt8) (s : Ull) :
    ullLoop base (c :: str) s = (0, s) := by
  rw [ullLoop]
  cases h : digitOf c with
  | none => rfl
  | some d => exact if_pos (hc d h)

theorem digit_cases (b : Nat) (c : UInt8) :
    (∃ d, digitOf c = some d ∧ d < b) ∨ ∀ d, digitOf c = some d → b ≤ d := by
  cases h : digitOf c with
  | none => simp
  | some d =>
    by_cases hlt : d < b
    · exact .inl ⟨d, rfl, hlt⟩
    · exact .inr fun e he => Option.some.inj he ▸ not_lt.1 hlt

theorem ullLoop_overflowed (hs : s.rErrno = some .ERANGE) (str : List UInt8) :
    ullLoop base str s = ((digitRun base str).length, s) := by
  induction str with
  | nil => rfl
  | cons c str ih =>
    rcases digit_cases base c with ⟨d, hc, hlt⟩ | hc
    · rw [ullLoop_cons hc hlt, digitRun_cons hc hlt, ullDigit, if_pos hs, ih, length_cons]
    · simp [ullLoop_stop hc, digitRun_stop hc]

/-- What digits make of the state: the value saturates. -/
def ullRead (base : Nat) (s : Ull) (ds : List Nat) : Ull :=
  if ds = [] then s
  else if readOn base s.value ds < 2 ^ 64 then ⟨none, readOn base s.value ds⟩
  else ⟨some .ERANGE, ullongMax⟩

theorem ullLoop_eq (hb : 0 < base) (hle : base ≤ 36) (str : List UInt8) : ∀ {s : Ull},
    s.rErrno ≠ some .ERANGE →
      ullLoop base str s = ((digitRun base str).length, ullRead base s (digitRun base str)) := by
  induction str with
  | nil =>
    intro s _
    rfl
  | cons c str ih =>
    intro s hs
    rcases digit_cases base c with ⟨d, hc, hlt⟩ | hc
    · rw [ullLoop_cons hc hlt, digitRun_cons hc hlt, length_cons, ullRead,
        if_neg (cons_ne_nil _ _), readOn_cons, ullDigit_eq hb hs (by omega)]
      by_cases hfit : s.value * base + d < 2 ^ 64
      · rw [if_pos hfit, ih (by simp), ullRead]
        by_cases hnil : digitRun base str = []
        · rw [if_pos hnil, hnil, readOn_nil, if_pos hfit]
        · rw [if_neg hnil]
      · have hge := le_readOn hb (digitRun base str) (s.value * base + d)
        rw [if_neg hfit, ullLoop_overflowed rfl, if_neg (by omega)]
    · rw [ullLoop_stop hc, digitRun_stop hc]
      rfl

/-! ## The prefix -/

theorem hexStart_cons (h : hexStart str = true) :
    ∃ x rest, str = 48 :: x :: rest ∧ digitOf x = some 33 := by
  rcases str with _ | ⟨c, _ | ⟨x, rest⟩⟩
  · simp [hexStart] at h
  · simp [hexStart] at h
  simp only [hexStart, getD_cons_zero, Bool.and_eq_true, Bool.or_eq_true, decide_eq_true_eq] at h
  refine ⟨x, rest, by rw [h.1], ?_⟩
  rcases h.2 with rfl | rfl
  · decide
  · decide

theorem digitRun_zero (hb : 2 ≤ b) {x : UInt8} (rest : List UInt8) :
    digitRun b (48 :: x :: rest) = 0 :: digitRun b (x :: rest) :=
  digitRun_cons (by decide) (by omega) _

/-- The digits and the base of the reference, where `0x` counts, and where it
does not. -/
theorem subject_of_allowed (h : hexAllowed base str = true) :
    subjectDigits base str = digitRun 16 (str.drop 2) ∧ baseOf base str = 16 ∧
      skipped base str = 2 := by
  have hb : baseOf base str = 16 := by
    by_cases h0 : base = 0
    · rw [baseOf, if_neg (not_not_intro h0), if_pos h]
    · rw [hexAllowed] at h
      simp only [h0, decide_false, Bool.false_or, Bool.and_eq_true, decide_eq_true_eq] at h
      rw [baseOf, if_pos h0, h.1.1]
  have hs : skipped base str = 2 := by rw [skipped, if_pos h]
  exact ⟨by rw [subjectDigits, hb, hs], hb, hs⟩

theorem subject_of_not_allowed (h : hexAllowed base str = false) :
    subjectDigits base str = digitRun (baseOf base str) str ∧ skipped base str = 0 := by
  have hs : skipped base str = 0 := by rw [skipped, h]; rfl
  exact ⟨by simp [subjectDigits, hs], hs⟩

theorem ullBase_of_not_hexStart (h : hexStart str = false) : ullBase str base = baseOf base str := by
  have hno : hexAllowed base str = false := by simp [hexAllowed, h]
  rw [ullBase, baseOf, hno, h]
  by_cases h0 : base = 0
  · rw [if_pos h0, if_neg (not_not_intro h0)]
    simp
  · rw [if_neg h0, if_pos h0]

theorem ullRead_converted {ds : List Nat} (h : ds ≠ []) :
    (ullRead b s ds).rErrno ≠ some .EINVAL := by
  rw [ullRead, if_neg h]
  split_ifs <;> simp

/-- `__dancy_ull`: the digits of the reference, their value, and where they
end. -/
theorem dancyUll_eq (hbase : base = 0 ∨ 2 ≤ base ∧ base ≤ 36) (str : List UInt8) :
    dancyUll str base = (ullRead (baseOf base str) ⟨some .EINVAL, 0⟩ (subjectDigits base str),
      skipped base str + (subjectDigits base str).length) := by
  have hrange : 2 ≤ ullBase str base ∧ ullBase str base ≤ 36 := by
    unfold ullBase
    split_ifs <;> omega
  have hloop : ∀ n, ullLoop (ullBase str base) (str.drop n) ⟨some .EINVAL, 0⟩ =
      ((digitRun (ullBase str base) (str.drop n)).length,
        ullRead (ullBase str base) ⟨some .EINVAL, 0⟩ (digitRun (ullBase str base) (str.drop n))) :=
    fun n => ullLoop_eq (by omega) hrange.2 _ (by simp)
  rw [dancyUll, if_pos hrange, hloop]
  rcases hhex : hexStart str with _ | _
  · have hno : hexAllowed base str = false := by simp [hexAllowed, hhex]
    obtain ⟨hds, hskip⟩ := subject_of_not_allowed hno
    have hat : ullSkip str base = 0 := by simp [ullSkip, hhex]
    rw [hat, ullBase_of_not_hexStart hhex, hds, hskip]
    simp
  obtain ⟨x, rest, rfl, hx⟩ := hexStart_cons hhex
  by_cases h16 : base = 0 ∨ base = 16
  · have hub : ullBase (48 :: x :: rest) base = 16 := by
      rcases h16 with rfl | rfl
      · rw [ullBase, if_pos rfl, if_pos hhex]
      · rfl
    have hat : ullSkip (48 :: x :: rest) base = 2 := by simp [ullSkip, hhex, hub]
    rw [hub, hat]
    by_cases hnil : digitRun 16 rest = []
    · -- No digit follows: the end is moved back before the `x`.
      have hno : hexAllowed base (48 :: x :: rest) = false := by simp [hexAllowed, hnil]
      obtain ⟨hds, hskip⟩ := subject_of_not_allowed hno
      have hb : 2 ≤ baseOf base (48 :: x :: rest) ∧ baseOf base (48 :: x :: rest) ≤ 16 := by
        unfold baseOf
        split_ifs <;> omega
      have hone : digitRun (baseOf base (48 :: x :: rest)) (48 :: x :: rest) = [0] := by
        rw [digitRun_zero hb.1, digitRun_stop]
        intro d hd
        rw [hx] at hd
        cases hd
        omega
      rw [hds, hone, hskip]
      simp [hnil, ullRead]
    · have hyes : hexAllowed base (48 :: x :: rest) = true := by
        rcases h16 with rfl | rfl <;> simp [hexAllowed, hhex, hnil]
      obtain ⟨hds, hb, hskip⟩ := subject_of_allowed hyes
      rw [hds, hb, hskip, if_neg fun hc => ullRead_converted hnil hc.1]
  · -- The `0` before the `x` is a digit.
    have hno : hexAllowed base (48 :: x :: rest) = false := by
      rw [not_or] at h16
      simp [hexAllowed, h16.1, h16.2]
    obtain ⟨hds, hskip⟩ := subject_of_not_allowed hno
    have hub : ullBase (48 :: x :: rest) base = base := if_neg fun h => h16 (.inl h)
    have hb : baseOf base (48 :: x :: rest) = base := if_pos fun h => h16 (.inl h)
    rw [hub] at hrange
    have hne : digitRun base (48 :: x :: rest) ≠ [] := by
      rw [digitRun_zero hrange.1]
      simp
    have hat : ullSkip (48 :: x :: rest) base = 0 := by
      rw [ullSkip, hub, if_neg fun h => h16 (.inr (by simpa using h : base = 16 ∧ _).1)]
    rw [hat, hds, hub, hb, hskip, drop_zero, if_neg fun hc => ullRead_converted hne hc.1]

theorem ullRead_value {b : Nat} {ds : List Nat} (h : ds ≠ []) :
    ullRead b ⟨some .EINVAL, 0⟩ ds = if Nat.ofDigits b ds.reverse < 2 ^ 64 then
      ⟨none, Nat.ofDigits b ds.reverse⟩ else ⟨some .ERANGE, ullongMax⟩ := by
  rw [ullRead, if_neg h, readOn_zero]

theorem strtoSigned_eq {bits : Nat} (hbits : bits - 1 < 64)
    (hbase : base = 0 ∨ 2 ≤ base ∧ base ≤ 36) (str : List UInt8) :
    strtoSigned bits str base =
      strtoReference (-2 ^ (bits - 1)) (2 ^ (bits - 1) - 1) str base := by
  obtain ⟨m, hm⟩ : ∃ m : Nat, m = 2 ^ (bits - 1) := ⟨_, rfl⟩
  have hmax : 1 ≤ m ∧ m ≤ 2 ^ 63 := by
    rw [hm]
    exact ⟨Nat.one_le_two_pow, Nat.pow_le_pow_right (by decide) (by omega)⟩
  have hcast : (2 : Int) ^ (bits - 1) = m := by
    rw [hm]
    norm_cast
  rw [strtoSigned, strtoReference, dancyUll_eq hbase, hcast, ← hm]
  by_cases hnil : subjectDigits base (str.drop (digitsAt str)) = []
  · rw [hnil, if_pos rfl, if_pos (by simp [ullRead])]
  rw [if_neg hnil, ullRead_value hnil]
  obtain ⟨v, hv⟩ : ∃ v : Nat, v = Nat.ofDigits (baseOf base (str.drop (digitsAt str)))
    (subjectDigits base (str.drop (digitsAt str))).reverse := ⟨_, rfl⟩
  rw [← hv, saturate, add_assoc (digitsAt str)]
  by_cases hfit : v < 2 ^ 64
  · rw [if_pos hfit, if_neg (by simp), if_neg (by simp)]
    by_cases hneg : str.getD (signAt str) 0 = 45
    · rw [if_pos hneg, if_pos hneg]
      by_cases hlt : m < v
      · rw [if_pos hlt, if_pos (by omega)]
      have hlow : ¬ -(v : Int) < -m := by omega
      have hhigh : ¬ -(v : Int) > m - 1 := by omega
      rw [if_neg hlt, if_neg hlow, if_neg hhigh]
      by_cases hlast : v = m
      · rw [if_pos hlast, hlast]
      · rw [if_neg hlast]
    · have hlow : ¬ (v : Int) < -m := by omega
      rw [if_neg hneg, if_neg hneg, if_neg hlow]
      by_cases hlt : v > m - 1
      · rw [if_pos hlt, if_pos (by omega)]
      · rw [if_neg hlt, if_neg (by omega)]
  · rw [if_neg hfit, if_neg (by simp), if_pos rfl]
    by_cases hneg : str.getD (signAt str) 0 = 45
    · rw [if_pos hneg, if_pos hneg, if_pos (by omega)]
    · rw [if_neg hneg, if_neg hneg, if_neg (by omega), if_pos (by omega)]

/-- `strtoull` for digits: their value modulo `2^64`, negated after a minus. -/
theorem strtoull_eq (hbase : base = 0 ∨ 2 ≤ base ∧ base ≤ 36) {n : Nat}
    (hds : subjectDigits base (str.drop (digitsAt str)) ≠ [])
    (hn : Nat.ofDigits (baseOf base (str.drop (digitsAt str)))
      (subjectDigits base (str.drop (digitsAt str))).reverse = n) (hfit : n < 2 ^ 64) :
    (strtoull str base).value = (if str.getD (signAt str) 0 = 45 then -n else n : Int) % 2 ^ 64 := by
  rw [strtoull, dancyUll_eq hbase]
  rw [ullRead_value hds, hn, if_pos hfit, if_neg (by simp), if_neg (by simp)]
  split
  · show (((2 ^ 64 - 1 - n + 1) % 2 ^ 64 : Nat) : Int) = _
    omega
  · show (n : Int) = _
    omega

/-- **`strtoll` and `strtol`** convert as the C standard has it: the value,
saturated with `ERANGE`, and the end pointer. -/
theorem strto_reference (str : List UInt8) {base : Nat}
    (hbase : base = 0 ∨ 2 ≤ base ∧ base ≤ 36) :
    strtoll str base = strtoReference (-2 ^ 63) (2 ^ 63 - 1) str base ∧
      ∀ a : Arch, strtol a str base =
        strtoReference (-2 ^ (8 * a.word - 1)) (2 ^ (8 * a.word - 1) - 1) str base :=
  ⟨strtoSigned_eq (by decide) hbase str,
    fun a => strtoSigned_eq (by cases a <;> decide) hbase str⟩

/-- ` -0x1fg` in base 0, and `0xg`, of which only the `0` is converted. -/
theorem strto_reference_hex :
    (strtoll [32, 45, 48, 120, 49, 102, 103] 0 = ⟨-31, 6, none⟩ ∧
      strtoll [32, 45, 48, 120, 49, 102, 103] 0 =
        strtoReference (-2 ^ 63) (2 ^ 63 - 1) [32, 45, 48, 120, 49, 102, 103] 0) ∧
      strtoll [48, 120, 103] 16 = ⟨0, 1, none⟩ :=
  ⟨⟨by decide, (strto_reference _ (.inl rfl)).1⟩, by decide⟩

end Dancy.Libc
