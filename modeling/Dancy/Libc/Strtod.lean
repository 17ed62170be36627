import Dancy.Libc.Strtol
import Mathlib.Data.List.GetD

/-!
# The end pointer of `strtod` (`stdlib/strtod.c`)

A string is the list of the bytes before its zero, and a pointer into it is an
offset. The arithmetic of `long double` is a parameter: of all that is computed
only the loop that counts an exponent down decides about the end, as it may not
end at all.
-/

namespace Dancy.Libc

open List Option

/-- What the code does with `d[0]` of an exponent. -/
structure Fpu (F : Type) where
  zero : F
  digit : F → Nat → F
  minusOne : F → F
  positive : F → Bool

/-! ## Characters -/

def isdigit (c : UInt8) : Bool := 48 ≤ c && c ≤ 57

def isxdigit (c : UInt8) : Bool :=
  48 ≤ c && c ≤ 57 || 97 ≤ c && c ≤ 102 || 65 ≤ c && c ≤ 70

def toupper (c : UInt8) : UInt8 := if 97 ≤ c ∧ c ≤ 122 then c - 32 else c

def caseInsensitive (c : UInt8) : UInt8 := if 65 ≤ c ∧ c ≤ 90 then 97 + (c - 65) else c

def strncasecmp : List UInt8 → List UInt8 → Nat → Int
  | _, _, 0 => 0
  | s1, s2, n + 1 =>
    let c1 := caseInsensitive (s1.getD 0 0)
    let c2 := caseInsensitive (s2.getD 0 0)
    if n = 0 ∨ c1 = 0 ∨ c1 ≠ c2 then
      if c1 = 0 ∧ c2 = 0 then 0
      else if c1 < c2 then -1
      else if c1 > c2 then 1
      else strncasecmp (s1.drop 1) (s2.drop 1) n
    else strncasecmp (s1.drop 1) (s2.drop 1) n

/-- `strchr`, for a character that is no zero. -/
def strchr (c : UInt8) : List UInt8 → Option Nat
  | [] => none
  | d :: s => if d = c then some 0 else if d = 0 then none else (strchr c s).map (· + 1)

/-- `array`. -/
def digitArray : List UInt8 := [48, 49, 50, 51, 52, 53, 54, 55, 56, 57, 65, 66, 67, 68, 69, 70]

/-- `memchr(&array[0], c, n)`. -/
def arrayFind (n : Nat) (c : UInt8) : Option Nat := (digitArray.take n).findIdx? (fun d => d = c)

/-- `"INFINITY"` and `"NAN"`. -/
def infinityWord : List UInt8 := [73, 78, 70, 73, 78, 73, 84, 89]

def nanWord : List UInt8 := [78, 65, 78]

/-! ## The code -/

/-- The loop over the digits of `r`: how many it passes. -/
def mantissaLoop (n : Nat) : List UInt8 → Nat
  | [] => 0
  | c :: s => if arrayFind n (toupper c) = none then 0 else mantissaLoop n s + 1

def mantissaStop (n : Nat) (s : List UInt8) : Nat :=
  let u := mantissaLoop n s
  if s.getD u 0 = 46 then u + 1 + mantissaLoop n (s.drop (u + 1)) else u

section
variable {F : Type} (fp : Fpu F)

def exponentLoop : List UInt8 → F → Nat × F
  | [], d => (0, d)
  | c :: s, d =>
    match arrayFind 10 c with
    | none => (0, d)
    | some i => ((exponentLoop s (fp.digit d i)).1 + 1, (exponentLoop s (fp.digit d i)).2)

/-- The loop that counts the exponent down: if it ends. -/
def countDown : (fuel : Nat) → F → Bool
  | 0, _ => false
  | fuel + 1, d => if fp.positive d then countDown fuel (fp.minusOne d) else true

def exponentSign (s : List UInt8) : Nat := if s.getD 0 0 = 43 ∨ s.getD 0 0 = 45 then 1 else 0

/-- The part behind `e` or `p`. -/
def exponentStop (fuel : Nat) (s : List UInt8) : Option Nat :=
  let sign := exponentSign s
  let r := exponentLoop fp (s.drop sign) fp.zero
  if countDown fp fuel r.2 then some (sign + r.1) else none

def marks (n : Nat) : List UInt8 := if n = 10 then [101, 69] else [112, 80]

/-- The numeral in base `n`. -/
def numeralStop (fuel : Nat) (n : Nat) (s : List UInt8) : Option Nat :=
  let m := mantissaStop n s
  if s.getD m 0 ∈ marks n then
    (exponentStop fp fuel (s.drop (m + 1))).map (fun k => m + 1 + k)
  else some m

def hexCase (s : List UInt8) : Bool :=
  s.getD 0 0 = 48 && (s.getD 1 0 = 120 || s.getD 1 0 = 88) &&
    (s.getD 2 0 = 46 || isxdigit (s.getD 2 0))

/-- What follows the sign: how many characters are passed, where 0 stands for
the start of the string. -/
def bodyStop (fuel : Nat) (s : List UInt8) : Option Nat :=
  if strncasecmp s infinityWord 3 = 0 then
    some (if strncasecmp s (infinityWord.drop 3) 5 = 0 then 8 else 3)
  else if strncasecmp s nanWord 3 = 0 then
    if s.getD 3 0 = 40 then
      match strchr 41 (s.drop 4) with
      | some p => some (4 + p + 1)
      | none => some 3
    else some 3
  else if s.getD 0 0 ≠ 46 ∧ isdigit (s.getD 0 0) = false then some 0
  else if hexCase s then (numeralStop fp fuel 16 (s.drop 2)).map (fun k => 2 + k)
  else numeralStop fp fuel 10 s

/-- `strtod`: the offset of `*endptr`. -/
def strtodEnd (fuel : Nat) (str : List UInt8) : Option Nat :=
  (bodyStop fp fuel (str.drop (digitsAt str))).map
    fun k => if k = 0 then 0 else digitsAt str + k

end

/-! ## The subject of the C standard -/

def IsDigit (b : Nat) (c : UInt8) : Prop := ∃ d, digitOf c = some d ∧ d < b

def IsSign (w : List UInt8) : Prop := w = [] ∨ w = [43] ∨ w = [45]

def Mantissa (b : Nat) (w : List UInt8) : Prop :=
  (w ≠ [] ∧ ∀ c ∈ w, IsDigit b c) ∨
    ∃ u v, u ++ v ≠ [] ∧ (∀ c ∈ u ++ v, IsDigit b c) ∧ w = u ++ 46 :: v

def Exponent (b : Nat) (w : List UInt8) : Prop :=
  w = [] ∨ ∃ m ∈ marks b, ∃ s ds, IsSign s ∧ ds ≠ [] ∧ (∀ c ∈ ds, IsDigit 10 c) ∧
    w = m :: (s ++ ds)

def Numeral (b : Nat) (w : List UInt8) : Prop :=
  ∃ u v, Mantissa b u ∧ Exponent b v ∧ w = u ++ v

def NChar (c : UInt8) : Prop := (digitOf c).isSome ∨ c = 95

def NanBody (w : List UInt8) : Prop :=
  w.map toupper = nanWord ∨
    ∃ u v, u.map toupper = nanWord ∧ (∀ c ∈ v, NChar c) ∧ w = u ++ 40 :: (v ++ [41])

def Body (w : List UInt8) : Prop :=
  Numeral 10 w ∨ (∃ x v, (x = 120 ∨ x = 88) ∧ Numeral 16 v ∧ w = 48 :: x :: v) ∨
    w.map toupper = infinityWord.take 3 ∨ w.map toupper = infinityWord ∨ NanBody w

def Subject (w : List UInt8) : Prop := ∃ s v, IsSign s ∧ Body v ∧ w = s ++ v

/-- The length of the longest prefix of a kind, or 0. -/
def LongestPrefix (P : List UInt8 → Prop) (t : List UInt8) (n : Nat) : Prop :=
  (∀ w, w <+: t → P w → w.length ≤ n) ∧ (n ≠ 0 → n ≤ t.length ∧ P (t.take n))

/-- The end that the C standard has: behind the longest subject that follows the
white space, or the start of the string. -/
def IsEnd (str : List UInt8) (e : Nat) : Prop :=
  ∃ n, LongestPrefix Subject (str.dropWhile isspace) n ∧
    e = if n = 0 then 0 else (str.takeWhile isspace).length + n

def DigitFirst (b : Nat) (s : List UInt8) : Prop := ∃ c r, s = c :: r ∧ IsDigit b c

/-- An exponent that is begun has digits, and is counted down. -/
def NumeralDone {F : Type} (fp : Fpu F) (b : Nat) (s : List UInt8) : Prop :=
  ∀ m u, s.drop (mantissaStop b s) = m :: u → m ∈ marks b →
    DigitFirst 10 (u.drop (exponentSign u)) ∧
      ∃ fuel, countDown fp fuel (exponentLoop fp (u.drop (exponentSign u)) fp.zero).2 = true

/-- No part is begun and not complete; `s` follows the sign. -/
structure Complete {F : Type} (fp : Fpu F) (s : List UInt8) : Prop where
  infinity : (s.take 8).map toupper ≠ infinityWord
  nan : (s.take 3).map toupper = nanWord → ∀ v r, s.drop 3 = 40 :: (v ++ 41 :: r) → 41 ∉ v →
    0 ∉ v → ∀ c ∈ v, NChar c
  point : ∀ r, s = 46 :: r → DigitFirst 10 r
  hexPoint : ∀ x r, (x = 120 ∨ x = 88) → s = 48 :: x :: 46 :: r → DigitFirst 16 r
  numeral : (s.getD 0 0 = 46 ∨ isdigit (s.getD 0 0) = true) →
    if hexCase s then NumeralDone fp 16 (s.drop 2) else NumeralDone fp 10 s

variable {b : Nat} {c : UInt8} {s t u v w r : List UInt8}

/-! ## Characters -/

theorem forall_byte {p : UInt8 → Prop} (h : ∀ i : Fin 256, p (UInt8.ofNat i)) (c : UInt8) :
    p c := by
  have hc := h ⟨c.toNat, c.toNat_lt⟩
  rwa [UInt8.ofNat_toNat] at hc

theorem isDigit_iff (b : Nat) (c : UInt8) :
    IsDigit b c ↔ (digitOf c).any (fun d => decide (d < b)) = true := by
  rw [IsDigit]
  cases digitOf c with
  | none | some => simp

instance (b : Nat) (c : UInt8) : Decidable (IsDigit b c) := decidable_of_iff _ (isDigit_iff b c).symm

/-- A base of `strtod`. -/
def IsBase (b : Nat) : Prop := b = 10 ∨ b = 16

theorem arrayFind_toupper (hb : IsBase b) (c : UInt8) :
    arrayFind b (toupper c) = none ↔ ¬ IsDigit b c := by
  revert c
  rcases hb with rfl | rfl
  all_goals exact forall_byte (by decide +kernel)

theorem digit_tests : ∀ c, (isdigit c = true ↔ IsDigit 10 c) ∧ (isxdigit c = true ↔ IsDigit 16 c) ∧
    (arrayFind 10 c = none ↔ ¬ IsDigit 10 c) :=
  forall_byte (by decide +kernel)

theorem isdigit_iff (c : UInt8) : isdigit c = true ↔ IsDigit 10 c := (digit_tests c).1

theorem isxdigit_iff (c : UInt8) : isxdigit c = true ↔ IsDigit 16 c := (digit_tests c).2.1

theorem not_isDigit_mark (hb : IsBase b) (hc : c ∈ marks b) : ¬ IsDigit b c := by
  rcases hb with rfl | rfl
  all_goals rcases mem_pair.mp hc with rfl | rfl <;> decide

theorem not_isDigit_point (hb : IsBase b) : ¬ IsDigit b 46 := by
  rcases hb with rfl | rfl
  · decide
  · decide

theorem point_not_mark (b : Nat) : (46 : UInt8) ∉ marks b := by
  rw [marks]
  split <;> decide

theorem zero_not_mark (b : Nat) : (0 : UInt8) ∉ marks b := by
  rw [marks]
  split <;> decide

theorem not_isDigit_sign (hc : c = 43 ∨ c = 45) : ¬ IsDigit 10 c := by
  rcases hc with rfl | rfl
  · decide
  · decide

/-! ## Digits -/

theorem mantissaLoop_append (hb : IsBase b) (hu : ∀ c ∈ u, IsDigit b c) (r : List UInt8) :
    mantissaLoop b (u ++ r) = u.length + mantissaLoop b r := by
  induction u with
  | nil => simp
  | cons c u ih =>
    have hc : arrayFind b (toupper c) ≠ none := fun hno =>
      (arrayFind_toupper hb c).mp hno (hu c mem_cons_self)
    rw [cons_append, mantissaLoop, if_neg hc,
      ih (fun d hd => hu d (.tail c hd)), length_cons]
    omega

theorem mantissaLoop_stop (hb : IsBase b) (hc : ¬ IsDigit b c) (r : List UInt8) :
    mantissaLoop b (c :: r) = 0 := by
  rw [mantissaLoop, if_pos ((arrayFind_toupper hb c).mpr hc)]

def Stops (b : Nat) (r : List UInt8) : Prop := ∀ c r', r = c :: r' → ¬ IsDigit b c

theorem Stops.nil (b : Nat) : Stops b [] := fun c r' h => by cases h

theorem Stops.cons (hc : ¬ IsDigit b c) (r : List UInt8) : Stops b (c :: r) := by
  intro d r' h
  cases h
  exact hc

theorem Stops.loop (hb : IsBase b) (h : Stops b r) : mantissaLoop b r = 0 := by
  cases r with
  | nil => rfl
  | cons c r => exact mantissaLoop_stop hb (h c r rfl) r

theorem digits_split (hb : IsBase b) (s : List UInt8) : ∃ u r, s = u ++ r ∧
    (∀ c ∈ u, IsDigit b c) ∧ Stops b r ∧ mantissaLoop b s = u.length := by
  induction s with
  | nil => exact ⟨[], [], rfl, forall_mem_nil _, Stops.nil b, rfl⟩
  | cons c s ih =>
    by_cases hc : IsDigit b c
    · obtain ⟨u, r, rfl, hu, hr, -⟩ := ih
      have hcu : ∀ d ∈ c :: u, IsDigit b d := by
        intro d hd
        rcases mem_cons.mp hd with rfl | hd
        · exact hc
        · exact hu d hd
      refine ⟨c :: u, r, rfl, hcu, hr, ?_⟩
      rw [← cons_append, mantissaLoop_append hb hcu, hr.loop hb, add_zero]
    · exact ⟨[], c :: s, rfl, forall_mem_nil _, Stops.cons hc s, mantissaLoop_stop hb hc s⟩

theorem exponentLoop_fst {F : Type} (fp : Fpu F) (s : List UInt8) (d : F) :
    (exponentLoop fp s d).1 = mantissaLoop 10 s := by
  induction s generalizing d with
  | nil => rfl
  | cons c s ih =>
    rw [exponentLoop]
    by_cases hc : IsDigit 10 c
    · rw [mantissaLoop, if_neg (fun hno => (arrayFind_toupper (Or.inl rfl) c).mp hno hc)]
      cases hfind : arrayFind 10 c with
      | none => exact absurd hc ((digit_tests c).2.2.mp hfind)
      | some i => exact congrArg (· + 1) (ih _)
    · rw [mantissaLoop_stop (Or.inl rfl) hc, (digit_tests c).2.2.mpr hc]

/-! ## The mantissa -/

theorem getD_after (u r : List UInt8) : (u ++ r).getD u.length 0 = r.getD 0 0 := by
  rw [getD_append_right _ _ _ _ le_rfl, Nat.sub_self]

/-- The code passes digits, a point and digits. -/
inductive MantissaShape (b : Nat) (s : List UInt8) : Prop where
  | point (u v r : List UInt8) (eq : s = u ++ 46 :: (v ++ r)) (hu : ∀ c ∈ u, IsDigit b c)
      (hv : ∀ c ∈ v, IsDigit b c) (hr : Stops b r)
      (stop : mantissaStop b s = u.length + 1 + v.length)
  | plain (u r : List UInt8) (eq : s = u ++ r) (hu : ∀ c ∈ u, IsDigit b c) (hr : Stops b r)
      (hpoint : r.getD 0 0 ≠ 46) (stop : mantissaStop b s = u.length)

theorem mantissaShape (hb : IsBase b) (s : List UInt8) : MantissaShape b s := by
  obtain ⟨u, r, rfl, hu, hr, hlen⟩ := digits_split hb s
  by_cases hpoint : r.getD 0 0 = 46
  · obtain ⟨r', rfl⟩ : ∃ r', r = 46 :: r' := by
      cases r with
      | nil => cases hpoint
      | cons c r' => exact ⟨r', congrArg (· :: r') hpoint⟩
    obtain ⟨v, r, rfl, hv, hr', hlen'⟩ := digits_split hb r'
    refine .point u v r rfl hu hv hr' ?_
    rw [mantissaStop, hlen, getD_after]
    simp [hlen']
  · refine .plain u r rfl hu hr hpoint ?_
    rw [mantissaStop, hlen, getD_after]
    exact if_neg hpoint

/-- There is a digit before or behind the point. -/
def HasDigits (b : Nat) (s : List UInt8) : Prop :=
  mantissaStop b s ≠ 0 ∧ ¬ (mantissaStop b s = 1 ∧ s.getD 0 0 = 46)

instance (b : Nat) (s : List UInt8) : Decidable (HasDigits b s) :=
  inferInstanceAs (Decidable (_ ∧ _))

section

variable (hb : IsBase b)
include hb

theorem ne_point_of_isDigit (hc : IsDigit b c) : c ≠ 46 := by
  rintro rfl
  exact not_isDigit_point hb hc

theorem hasDigits_point (hu : ∀ c ∈ u, IsDigit b c)
    (hstop : mantissaStop b (u ++ 46 :: r) = u.length + 1 + v.length) :
    HasDigits b (u ++ 46 :: r) ↔ u ++ v ≠ [] := by
  rw [HasDigits, hstop]
  cases u with
  | nil =>
    cases v with
    | nil | cons => simp
  | cons d u =>
    have hd : d ≠ 46 := ne_point_of_isDigit hb (hu d mem_cons_self)
    simp [hd]

theorem hasDigits_plain (hu : ∀ c ∈ u, IsDigit b c) (hstop : mantissaStop b (u ++ r) = u.length) :
    HasDigits b (u ++ r) ↔ u ≠ [] := by
  rw [HasDigits, hstop]
  cases u with
  | nil => simp
  | cons d u =>
    have hd : d ≠ 46 := ne_point_of_isDigit hb (hu d mem_cons_self)
    simp [hd]

theorem mantissaStop_le (s : List UInt8) : mantissaStop b s ≤ s.length := by
  cases mantissaShape hb s with
  | point u v r eq hu hv hr stop =>
    rw [stop, eq]
    simp only [length_append, length_cons]
    omega
  | plain u r eq hu hr hpoint stop =>
    rw [stop, eq, length_append]
    omega

theorem mantissa_take (h : HasDigits b s) : Mantissa b (s.take (mantissaStop b s)) := by
  cases mantissaShape hb s with
  | point u v r eq hu hv hr stop =>
    subst eq
    have hne := (hasDigits_point hb hu stop).mp h
    refine Or.inr ⟨u, v, hne, fun c hc => ?_, ?_⟩
    · rcases mem_append.mp hc with hc | hc
      · exact hu c hc
      · exact hv c hc
    · rw [stop, show u ++ 46 :: (v ++ r) = (u ++ 46 :: v) ++ r by simp,
        take_left' (by simp; omega)]
  | plain u r eq hu hr hpoint stop =>
    subst eq
    rw [stop, take_left]
    exact Or.inl ⟨(hasDigits_plain hb hu stop).mp h, hu⟩

/-- No mantissa is longer, and one that an exponent follows is this one. -/
theorem mantissa_prefix (hu : Mantissa b u) (r : List UInt8) :
    HasDigits b (u ++ r) ∧ u.length ≤ mantissaStop b (u ++ r) ∧
      ∀ m r', r = m :: r' → m ∈ marks b → mantissaStop b (u ++ r) = u.length := by
  have hmark : ∀ {m r'}, r = m :: r' → m ∈ marks b → mantissaLoop b r = 0 ∧ r.getD 0 0 ≠ 46 := by
    rintro m r' rfl hm
    refine ⟨mantissaLoop_stop hb (not_isDigit_mark hb hm) r', ?_⟩
    rintro rfl
    exact point_not_mark b hm
  rcases hu with ⟨hne, hu⟩ | ⟨x, y, hne, hxy, rfl⟩
  · have hlen : 0 < u.length := length_pos_iff.mpr hne
    obtain ⟨d, u', rfl⟩ := exists_cons_of_ne_nil hne
    have hd : d ≠ 46 := ne_point_of_isDigit hb (hu d mem_cons_self)
    have hloop := mantissaLoop_append hb hu r
    have hge : (d :: u').length ≤ mantissaStop b (d :: u' ++ r) := by
      rw [mantissaStop, hloop]
      split <;> omega
    refine ⟨⟨by omega, fun h => hd h.2⟩, hge, fun m r' hr hm => ?_⟩
    obtain ⟨hzero, hpoint⟩ := hmark hr hm
    rw [mantissaStop, hloop, hzero, add_zero, getD_after]
    exact if_neg hpoint
  · have hx : ∀ c ∈ x, IsDigit b c := fun c hc => hxy c (mem_append_left y hc)
    have hy : ∀ c ∈ y, IsDigit b c := fun c hc => hxy c (mem_append_right x hc)
    have heq : x ++ 46 :: y ++ r = x ++ 46 :: (y ++ r) := by simp
    have hstop : mantissaStop b (x ++ 46 :: (y ++ r)) =
        x.length + 1 + (y.length + mantissaLoop b r) := by
      rw [mantissaStop, mantissaLoop_append hb hx, mantissaLoop_stop hb (not_isDigit_point hb),
        add_zero, getD_after]
      simp [mantissaLoop_append hb hy]
    have hlen : (x ++ 46 :: y).length = x.length + 1 + y.length := by
      simp only [length_append, length_cons]
      omega
    rw [heq, hlen, hstop]
    refine ⟨⟨by omega, fun h => hne ?_⟩, by omega, fun m r' hr hm => ?_⟩
    · rw [append_eq_nil_iff, ← length_eq_zero_iff, ← length_eq_zero_iff]
      omega
    · have hzero := (hmark hr hm).1
      omega

end

/-- The length of the exponent, 0 if it has no digits. -/
def exponentEnd (b : Nat) (r : List UInt8) : Nat :=
  if r.getD 0 0 ∈ marks b then
    let sign := exponentSign (r.drop 1)
    let k := mantissaLoop 10 (r.drop (1 + sign))
    if k = 0 then 0 else 1 + sign + k
  else 0

theorem exponentSign_append (hs : IsSign s) (hds : u ≠ []) (hu : ∀ c ∈ u, IsDigit 10 c) :
    exponentSign (s ++ (u ++ r)) = s.length := by
  rcases hs with rfl | rfl | rfl
  · obtain ⟨d, u', rfl⟩ := exists_cons_of_ne_nil hds
    have hd := hu d mem_cons_self
    exact if_neg fun h => not_isDigit_sign h hd
  · rfl
  · rfl

theorem exponentSign_split (r : List UInt8) :
    IsSign (r.take (exponentSign r)) ∧ exponentSign r ≤ r.length := by
  rw [exponentSign]
  split
  · next h =>
      cases r with
      | nil => simp at h
      | cons c r =>
        refine ⟨Or.inr ?_, by simp⟩
        rcases h with h | h
        · exact Or.inl (congrArg (· :: []) h)
        · exact Or.inr (congrArg (· :: []) h)
  · exact ⟨Or.inl rfl, Nat.zero_le _⟩

theorem exponent_prefix (hm : c ∈ marks b) (hs : IsSign s) (hne : u ≠ [])
    (hu : ∀ c ∈ u, IsDigit 10 c) (r : List UInt8) :
    1 + s.length + u.length ≤ exponentEnd b (c :: (s ++ (u ++ r))) := by
  have hsign := @exponentSign_append s u r hs hne hu
  have hpos : 0 < u.length := length_pos_iff.mpr hne
  rw [exponentEnd]
  rw [if_pos (show (c :: (s ++ (u ++ r))).getD 0 0 ∈ marks b from hm)]
  rw [drop_succ_cons, drop_zero, hsign]
  dsimp only
  rw [add_comm 1, drop_succ_cons, drop_left, mantissaLoop_append (Or.inl rfl) hu,
    if_neg (by omega)]
  omega

theorem exponent_take (b : Nat) (r : List UInt8) :
    Exponent b (r.take (exponentEnd b r)) ∧ exponentEnd b r ≤ r.length := by
  rw [exponentEnd]
  split
  · next hm =>
      cases r with
      | nil => exact absurd hm (zero_not_mark b)
      | cons m r =>
        dsimp only
        rw [drop_succ_cons, drop_zero, add_comm 1, drop_succ_cons]
        obtain ⟨hsign, hle⟩ := exponentSign_split r
        obtain ⟨ds, r', heq, hds, -, hloop⟩ := digits_split (Or.inl rfl) (r.drop (exponentSign r))
        rw [hloop]
        by_cases hnil : ds.length = 0
        · rw [if_pos hnil]
          exact ⟨Or.inl rfl, Nat.zero_le _⟩
        rw [if_neg hnil]
        have hr : r = r.take (exponentSign r) ++ ds ++ r' := by
          simp [← heq]
        have htake : (r.take (exponentSign r) ++ ds).length = exponentSign r + ds.length := by
          rw [length_append, length_take, min_eq_left hle]
        constructor
        · refine Or.inr ⟨m, hm, r.take (exponentSign r), ds, hsign,
            fun h => hnil (by rw [h]; rfl), hds, ?_⟩
          rw [show exponentSign r + 1 + ds.length = (exponentSign r + ds.length) + 1 by omega,
            take_succ_cons]
          rw [← htake]
          refine congrArg (m :: ·) ?_
          have hleft := @take_left _ (r.take (exponentSign r) ++ ds) r'
          rwa [← hr] at hleft
        · have hlen := congrArg length hr
          rw [length_append, htake] at hlen
          rw [length_cons]
          omega
  · exact ⟨Or.inl rfl, Nat.zero_le _⟩

/-- The length of the numeral, 0 if it has no digits. -/
def numeralEnd (b : Nat) (s : List UInt8) : Nat :=
  if HasDigits b s then mantissaStop b s + exponentEnd b (s.drop (mantissaStop b s)) else 0

section

variable (hb : IsBase b)
include hb

theorem numeral_longest (s : List UInt8) : LongestPrefix (Numeral b) s (numeralEnd b s) := by
  constructor
  · rintro w ⟨r, rfl⟩ ⟨x, y, hx, hy, rfl⟩
    obtain ⟨hdigits, hle, hstop⟩ := mantissa_prefix hb hx (y ++ r)
    rw [append_assoc, numeralEnd, if_pos hdigits, length_append]
    rcases hy with rfl | ⟨m, hm, sg, ds, hsg, hne, hds, rfl⟩
    · rw [length_nil]
      omega
    have hexp := exponent_prefix hm hsg hne hds r
    have heq : m :: (sg ++ ds) ++ r = m :: (sg ++ (ds ++ r)) := by simp
    rw [heq] at hstop ⊢
    rw [hstop m _ rfl hm, drop_left]
    simp only [length_cons, length_append]
    omega
  · intro hne
    rw [numeralEnd] at hne ⊢
    split at hne
    · next hdigits =>
        rw [if_pos hdigits]
        obtain ⟨hexp, hle⟩ := exponent_take b (s.drop (mantissaStop b s))
        have hstop := mantissaStop_le hb s
        rw [length_drop] at hle
        refine ⟨by omega, s.take (mantissaStop b s), _, mantissa_take hb hdigits, hexp, ?_⟩
        rw [take_add]
    · omega

theorem mantissaLoop_pos (s : List UInt8) : mantissaLoop b s ≠ 0 ↔ DigitFirst b s := by
  cases s with
  | nil => exact ⟨fun h => absurd rfl h, fun ⟨c, r, h, _⟩ => (by cases h)⟩
  | cons c s =>
    by_cases hc : IsDigit b c
    · have hloop := @mantissaLoop_append b [c] hb
        (fun d hd => (mem_singleton.mp hd) ▸ hc) s
      have hpos : mantissaLoop b (c :: s) = 1 + mantissaLoop b s := hloop
      exact ⟨fun _ => ⟨c, s, rfl, hc⟩, fun _ => by omega⟩
    · rw [mantissaLoop_stop hb hc]
      refine ⟨fun h => absurd rfl h, ?_⟩
      rintro ⟨d, r, heq, hd⟩
      cases heq
      exact absurd hd hc

theorem hasDigits_digit (hc : IsDigit b c) (r : List UInt8) : HasDigits b (c :: r) := by
  have hpos := (mantissaLoop_pos hb (c :: r)).mpr ⟨c, r, rfl, hc⟩
  refine ⟨?_, fun h => ne_point_of_isDigit hb hc h.2⟩
  rw [mantissaStop]
  split
  · omega
  · exact hpos

theorem hasDigits_point_first (r : List UInt8) : HasDigits b (46 :: r) ↔ DigitFirst b r := by
  have hstop : mantissaStop b (46 :: r) = 1 + mantissaLoop b r := by
    rw [mantissaStop, mantissaLoop_stop hb (not_isDigit_point hb)]
    rfl
  rw [← mantissaLoop_pos hb, HasDigits, hstop]
  constructor
  · intro h hzero
    exact h.2 ⟨by omega, rfl⟩
  · intro h
    omega

end

theorem numeral_head (h : Numeral b w) :
    ∃ c w', w = c :: w' ∧ (IsDigit b c ∨ c = 46) := by
  obtain ⟨x, y, hx, -, rfl⟩ := h
  rcases hx with ⟨hne, hx⟩ | ⟨u, v, -, huv, rfl⟩
  · obtain ⟨d, x, rfl⟩ := exists_cons_of_ne_nil hne
    exact ⟨d, x ++ y, rfl, Or.inl (hx d mem_cons_self)⟩
  · cases u with
    | nil => simp
    | cons d u => exact ⟨d, u ++ 46 :: v ++ y, rfl, Or.inl (huv d mem_cons_self)⟩

theorem numeral_hasDigits (hb : IsBase b) (hw : w <+: s) (h : Numeral b w) : HasDigits b s := by
  obtain ⟨r, rfl⟩ := hw
  obtain ⟨x, y, hx, -, rfl⟩ := h
  rw [append_assoc]
  exact ( mantissa_prefix hb hx (y ++ r)).1

section
variable {F : Type} (fp : Fpu F)

theorem getD_drop (s : List UInt8) (m : Nat) : s.getD m 0 = (s.drop m).getD 0 0 := by
  simp

theorem numeralStop_iff (hdigits : HasDigits b s) :
    (∃ fuel, numeralStop fp fuel b s = some (numeralEnd b s)) ↔ NumeralDone fp b s := by
  rw [NumeralDone]
  simp only [numeralStop, numeralEnd, exponentEnd, if_pos hdigits, getD_drop s]
  have hdrop : s.drop (mantissaStop b s + 1) = (s.drop (mantissaStop b s)).drop 1 := by
    rw [drop_drop]
  rw [hdrop]
  generalize mantissaStop b s = stop
  cases hrest : s.drop stop with
  | nil =>
    rw [show ([] : List UInt8).getD 0 0 = 0 from rfl]
    simp only [if_neg (zero_not_mark b)]
    simp
  | cons m u =>
    rw [show (m :: u).getD 0 0 = m from rfl, drop_succ_cons, drop_zero]
    by_cases hm : m ∈ marks b
    · simp only [if_pos hm, exponentStop, exponentLoop_fst, add_comm 1 (exponentSign u),
        drop_succ_cons]
      have hpos := mantissaLoop_pos (Or.inl rfl) (u.drop (exponentSign u))
      constructor
      · rintro ⟨fuel, hfuel⟩ m' u' heq -
        cases heq
        by_cases hcount : countDown fp fuel
            (exponentLoop fp (u.drop (exponentSign u)) fp.zero).2 = true
        · rw [if_pos hcount, map_some, some.injEq] at hfuel
          refine ⟨hpos.mp fun hzero => ?_, fuel, hcount⟩
          rw [if_pos hzero] at hfuel
          omega
        · rw [if_neg hcount] at hfuel
          cases hfuel
      · intro h
        obtain ⟨hfirst, fuel, hcount⟩ := h m u rfl hm
        refine ⟨fuel, ?_⟩
        rw [if_pos hcount, if_neg (hpos.mpr hfirst), map_some, some.injEq]
        omega
    · simp only [if_neg hm]
      refine ⟨fun _ m' u' heq hm' => ?_, fun _ => ⟨0, rfl⟩⟩
      cases heq
      exact absurd hm' hm

theorem numeralStop_bounds (hb : IsBase b) (s : List UInt8) {fuel k : Nat}
    (h : numeralStop fp fuel b s = some k) : mantissaStop b s ≤ k ∧ k ≤ s.length := by
  have hstop := mantissaStop_le hb s
  rw [numeralStop] at h
  by_cases hm : s.getD (mantissaStop b s) 0 ∈ marks b
  · rw [if_pos hm, exponentStop] at h
    have hlen : mantissaStop b s < s.length := by
      by_contra hge
      rw [getD_eq_default _ _ (by omega)] at hm
      exact zero_not_mark b hm
    obtain ⟨-, hsign⟩ := exponentSign_split (s.drop (mantissaStop b s + 1))
    obtain ⟨ds, r, heq, -, -, hloop⟩ := digits_split (Or.inl rfl)
      ((s.drop (mantissaStop b s + 1)).drop (exponentSign (s.drop (mantissaStop b s + 1))))
    have hds := congrArg length heq
    rw [length_append, length_drop, length_drop] at hds
    rw [length_drop] at hsign
    split at h
    · rw [exponentLoop_fst, hloop, map_some, some.injEq] at h
      omega
    · cases h
  · rw [if_neg hm, some.injEq] at h
    omega

end

end Dancy.Libc
