import Dancy.Libc.Scan

/-!
# Scanning integers (`_scan.c`)

`get_number` collects the characters of a number, and `strtoll` or `strtoull`
converts them. The reference is the rule of the C standard: the input item is
the longest sequence of characters that is a number in the given base, or the
start of one.
-/

namespace Dancy.Libc

open Dancy.Lib List

/-! ## The code -/

/-- The values of `c_min` and `c_max` that are used. -/
inductive Ranges where
  | decimal
  | octal
  | hexadecimal

def Ranges.bounds : Ranges → List (Nat × Nat)
  | .decimal => [(48, 57), (48, 57), (48, 57)]
  | .octal => [(48, 55), (48, 55), (48, 55)]
  | .hexadecimal => [(48, 57), (97, 102), (65, 70)]

/-- The loop that sets `status`. -/
def Ranges.has (ranges : Ranges) (c : UInt8) : Bool :=
  ranges.bounds.any fun b => b.1 ≤ c.toNat && c.toNat ≤ b.2

/-- `r`, and the characters of `buffer` before its zero. -/
structure Number where
  r : Nat
  buffer : List UInt8

/-- A character is kept as long as there is room. -/
def Number.put (n : Number) (i : Nat) (c : UInt8) : Number :=
  if i < 28 then ⟨n.r + 1, n.buffer ++ [c]⟩ else n

/-- The loop of `get_number`, from its head on; the result is the number and
the characters that are left. The counter `i` is an `int`, and nothing is said
once it overflows. -/
def digitLoop (ranges : Ranges) (limit : Nat) :
    (i width : Nat) → Number → List UInt8 → Option (Number × List UInt8)
  | _, _, n, [] => some (n, [])
  | i, width, n, c :: input =>
    if width ≥ limit then some (n, c :: input)
    else if c = 0 then some (n, input)
    else if ranges.has c = false then some (n, c :: input)
    else if i + 1 = 2 ^ 31 then none
    else digitLoop ranges limit (i + 1) (width + 1) (n.put i c) input

/-- The end of the first round, with the character `c` in hand. -/
def digitStep (ranges : Ranges) (limit i width : Nat) (n : Number) (c : UInt8)
    (input : List UInt8) : Option (Number × List UInt8) :=
  if ranges.has c = false then some (n, c :: input)
  else digitLoop ranges limit (i + 1) width (n.put i c) input

/-- The first round for base 0, after a `0`. -/
def afterZero (limit : Nat) (input : List UInt8) : Option (Number × List UInt8) :=
  if 1 ≥ limit then some (⟨1, [48]⟩, input)
  else
    match callGet input with
    | (none, input) => some (⟨1, [48]⟩, input)
    | (some x, input) =>
      if x = 120 ∨ x = 88 then
        if 2 ≥ limit then some (⟨2, [48, x]⟩, input)
        else
          match callGet input with
          | (none, input) => some (⟨2, [48, x]⟩, input)
          | (some c, input) => digitStep .hexadecimal limit 2 3 ⟨2, [48, x]⟩ c input
      else digitStep .octal limit 1 2 ⟨1, [48]⟩ x input

def firstRound (limit base : Nat) (c : UInt8) (input : List UInt8) :
    Option (Number × List UInt8) :=
  if c = 45 ∨ c = 43 then digitLoop .decimal limit 1 1 ⟨0, [c]⟩ input
  else if base = 0 then
    if c = 48 then afterZero limit input else digitStep .decimal limit 0 1 ⟨0, []⟩ c input
  else if base = 8 then digitStep .octal limit 0 1 ⟨0, []⟩ c input
  else if base = 16 then digitStep .hexadecimal limit 0 1 ⟨0, []⟩ c input
  else digitStep .decimal limit 0 1 ⟨0, []⟩ c input

/-- `__DANCY_SIZE_MAX`. -/
def sizeMax (a : Arch) : Nat := 2 ^ (8 * a.word) - 1

def widthLimit (a : Arch) (fieldWidth : Nat) : Nat :=
  if fieldWidth = 0 then sizeMax a else fieldWidth

/-- `get_number`. `EOF` after white space is given back. -/
def getNumber (source : Source) (a : Arch) (fieldWidth base : Nat) (input : List UInt8) :
    Option (Number × List UInt8) :=
  match callGet input with
  | (none, input) => some (⟨0, []⟩, input)
  | (some c, input) =>
    match if isspace c then skipSpaces input else (some c, input) with
    | (none, input) => some (⟨0, []⟩, source.unget none input)
    | (some c, input) => firstRound (widthLimit a fieldWidth) base c input

inductive LengthModifier where
  | none
  | hh
  | h
  | ell
  | ellell
  | j
  | z
  | tee
  | bell

/-- The size of what `write_signed` and `write_unsigned` store, in bits. -/
def LengthModifier.bits (a : Arch) : LengthModifier → Nat
  | .none => 32
  | .hh => 8
  | .h => 16
  | .ell => 8 * a.word
  | .ellell => 64
  | .j => 64
  | _ => 8 * a.word

/-- The conversions; `x` is for `X`, too. -/
inductive Conversion where
  | d
  | i
  | o
  | u
  | x
deriving DecidableEq

/-- The base that `get_number` and the conversion get. -/
def Conversion.base : Conversion → Nat
  | .d => 10
  | .i => 0
  | .o => 8
  | .u => 10
  | .x => 16

def Conversion.value (conv : Conversion) (buffer : List UInt8) : Int :=
  match conv with
  | .d | .i | .o => (strtoll buffer conv.base).value
  | .u | .x => (strtoull buffer conv.base).value

/-- `write_signed` and `write_unsigned`: the bits of the object. -/
def writeInteger (bits : Nat) (value : Int) : Int := value % 2 ^ bits

/-- One of the conversions `d`, `i`, `o`, `u`, `x`: the bits that are stored,
unless the matching fails, and the characters that are left. -/
def scanInteger (source : Source) (a : Arch) (conv : Conversion) (length : LengthModifier)
    (fieldWidth : Nat) (input : List UInt8) : Option (Option Int × List UInt8) :=
  match getNumber source a fieldWidth conv.base input with
  | none => none
  | some (n, input) =>
    if n.r = 0 then some (none, input)
    else some (some (writeInteger (length.bits a) (conv.value n.buffer)), input)

/-! ## The reference -/

def signLength (t : List UInt8) : Nat :=
  if t.getD 0 0 = 43 ∨ t.getD 0 0 = 45 then 1 else 0

/-- `0x` belongs to a number of the base. -/
def hexPrefixed (base : Nat) (t : List UInt8) : Bool := (base = 0 || base = 16) && hexStart t

def prefixLength (base : Nat) (t : List UInt8) : Nat := if hexPrefixed base t then 2 else 0

def numberBase (base : Nat) (t : List UInt8) : Nat :=
  if hexPrefixed base t then 16
  else if base ≠ 0 then base
  else if t.getD 0 0 = 48 then 8
  else 10

def numberDigits (base : Nat) (t : List UInt8) : List Nat :=
  digitRun (numberBase base (t.drop (signLength t)))
    ((t.drop (signLength t)).drop (prefixLength base (t.drop (signLength t))))

/-- The length of the input item at the start of `t`. -/
def itemLength (base : Nat) (t : List UInt8) : Nat :=
  signLength t + prefixLength base (t.drop (signLength t)) + (numberDigits base t).length

def magnitude (base : Nat) (t : List UInt8) : Nat :=
  Nat.ofDigits (numberBase base (t.drop (signLength t))) (numberDigits base t).reverse

def numberValue (base : Nat) (t : List UInt8) : Int :=
  if t.getD 0 0 = 45 then -magnitude base t else magnitude base t

/-- The characters that an item may take: after white space, and not more than
the field width. -/
def field (fieldWidth : Nat) (input : List UInt8) : List UInt8 :=
  if fieldWidth = 0 then input.dropWhile isspace else (input.dropWhile isspace).take fieldWidth

/-- The number can be represented; otherwise the standard leaves open what is
stored. -/
def Representable (conv : Conversion) (bits : Nat) (t : List UInt8) : Prop :=
  match conv with
  | .d | .i => -2 ^ (bits - 1) ≤ numberValue conv.base t ∧ numberValue conv.base t < 2 ^ (bits - 1)
  | .o | .u | .x => (magnitude conv.base t : Int) < 2 ^ bits

/-- The scan follows the rule: what is left, whether the item matches, and the
bits that are stored. -/
def ScansNumber (source : Source) (a : Arch) (conv : Conversion) (length : LengthModifier)
    (fieldWidth : Nat) (input : List UInt8) : Prop :=
  let t := field fieldWidth input
  ∃ stored rest, scanInteger source a conv length fieldWidth input = some (stored, rest) ∧
    rest = (input.dropWhile isspace).drop (itemLength conv.base t) ∧
    (stored.isSome ↔ numberDigits conv.base t ≠ []) ∧
    ∀ v, stored = some v → Representable conv (length.bits a) t →
      v = numberValue conv.base t % 2 ^ length.bits a

/-- The exact condition: the code follows the rule. -/
structure PlainNumber (source : Source) (conv : Conversion) (bits fieldWidth : Nat)
    (input : List UInt8) : Prop where
  /-- `0x` is for `%i` only, without a sign and with a digit after it. -/
  hexPrefixed : hexPrefixed conv.base
      ((field fieldWidth input).drop (signLength (field fieldWidth input))) = true →
    conv.base = 0 ∧ signLength (field fieldWidth input) = 0 ∧
      numberDigits conv.base (field fieldWidth input) ≠ []
  /-- The digits after a sign are decimal, and those of the number are. -/
  signed : signLength (field fieldWidth input) = 1 →
    (digitRun 10 ((field fieldWidth input).drop 1)).length =
      (numberDigits conv.base (field fieldWidth input)).length
  /-- No zero ends the number. -/
  next : fieldWidth = 0 ∨ itemLength conv.base (field fieldWidth input) < fieldWidth →
    (input.dropWhile isspace)[itemLength conv.base (field fieldWidth input)]? ≠ some 0
  /-- A file does not end after white space. -/
  space : source = .fscanf → input.dropWhile isspace = [] → input = []
  short : itemLength conv.base (field fieldWidth input) < 2 ^ 31
  /-- `%o` is converted by `strtoll`, and 28 characters are kept. -/
  value : numberDigits conv.base (field fieldWidth input) ≠ [] →
    Representable conv bits (field fieldWidth input) →
      (conv = .o → -2 ^ 63 ≤ numberValue conv.base (field fieldWidth input) ∧
        numberValue conv.base (field fieldWidth input) < 2 ^ 63) ∧
      (itemLength conv.base (field fieldWidth input) ≤ 28 ∨
        magnitude conv.base (field fieldWidth input) = 0)

/-! ## The digits that are collected -/

def Ranges.base : Ranges → Nat
  | .decimal => 10
  | .octal => 8
  | .hexadecimal => 16

variable (ranges : Ranges)

theorem Ranges.has_iff (c : UInt8) :
    ranges.has c = true ↔ ∃ d, digitOf c = some d ∧ d < ranges.base := by
  unfold digitOf
  cases ranges
  all_goals
    simp only [Ranges.has, Ranges.bounds, Ranges.base]
    split_ifs <;> simp <;> omega

variable {c : UInt8} {limit : Nat}

theorem digitRun_has {ranges : Ranges} (h : ranges.has c = true) (input : List UInt8) :
    ∃ d, digitRun ranges.base (c :: input) = d :: digitRun ranges.base input := by
  obtain ⟨d, hd, hlt⟩ := (ranges.has_iff c).1 h
  exact ⟨d, digitRun_cons hd hlt input⟩

theorem digitRun_not_has {ranges : Ranges} (h : ranges.has c = false) (input : List UInt8) :
    digitRun ranges.base (c :: input) = [] := by
  refine digitRun_stop (fun d hd => not_lt.1 fun hlt => ?_) input
  rw [(ranges.has_iff c).2 ⟨d, hd, hlt⟩] at h
  cases h

theorem digitRun_take (b : Nat) (input : List UInt8) : ∀ k : Nat,
    digitRun b (input.take k) = (digitRun b input).take k := by
  induction input with
  | nil =>
    intro k
    rw [take_nil]
    exact take_nil.symm
  | cons c input ih =>
    intro k
    cases k with
    | zero => rfl
    | succ k =>
      rw [take_succ_cons]
      rcases digit_cases b c with ⟨d, hc, hlt⟩ | hc
      · simp [digitRun_cons hc hlt, ih]
      · rw [digitRun_stop hc, digitRun_stop hc, take_nil]

theorem digitRun_get {b : Nat} {input : List UInt8} : ∀ {j : Nat},
    j < (digitRun b input).length → ∃ c d, input[j]? = some c ∧ digitOf c = some d ∧ d < b := by
  induction input with
  | nil => exact fun h => absurd h (Nat.not_lt_zero _)
  | cons c input ih =>
    intro j hj
    rcases digit_cases b c with ⟨d, hc, hlt⟩ | hc
    · rw [digitRun_cons hc hlt, length_cons] at hj
      cases j with
      | zero => exact ⟨c, d, rfl, hc, hlt⟩
      | succ j => exact ih (by omega)
    · rw [digitRun_stop hc] at hj
      cases hj

theorem digitRun_length_le (b : Nat) (input : List UInt8) :
    (digitRun b input).length ≤ input.length := by
  by_contra hlt
  obtain ⟨c, d, hc, -, -⟩ := digitRun_get (not_le.1 hlt)
  rw [getElem?_eq_none le_rfl] at hc
  cases hc

def Number.keep (n : Number) (i : Nat) (cs : List UInt8) : Number :=
  ⟨n.r + min cs.length (28 - i), n.buffer ++ cs.take (28 - i)⟩

theorem Number.put_keep (n : Number) (i : Nat) (c : UInt8) (cs : List UInt8) :
    (n.put i c).keep (i + 1) cs = n.keep i (c :: cs) := by
  rw [Number.put]
  by_cases hi : i < 28
  · rw [if_pos hi]
    obtain ⟨k, hk⟩ : ∃ k, 28 - i = k + 1 := ⟨28 - i - 1, by omega⟩
    have hk' : 28 - (i + 1) = k := by omega
    have hr : n.r + 1 + min cs.length k = n.r + min (cs.length + 1) (k + 1) := by omega
    rw [Number.keep, Number.keep, hk, hk', take_succ_cons, length_cons, append_assoc, hr]
    rfl
  · rw [if_neg hi]
    have hk : 28 - i = 0 := by omega
    have hk' : 28 - (i + 1) = 0 := by omega
    rw [Number.keep, Number.keep, hk, hk', Nat.min_zero, Nat.min_zero]
    rfl

/-- What is left after `k` characters, where another one is read if the room
lasts: a zero is lost. -/
def leave (room k : Nat) (input : List UInt8) : List UInt8 :=
  if k < room ∧ input[k]? = some 0 then input.drop (k + 1) else input.drop k

def runLength (b room : Nat) (input : List UInt8) : Nat := (digitRun b (input.take room)).length

theorem digitLoop_eq (limit : Nat) (input : List UInt8) :
    ∀ {i width : Nat} {n : Number}, i < 2 ^ 31 → digitLoop ranges limit i width n input =
        if i + runLength ranges.base (limit - width) input < 2 ^ 31 then
          some (n.keep i (input.take (runLength ranges.base (limit - width) input)),
            leave (limit - width) (runLength ranges.base (limit - width) input) input)
        else none := by
  induction input with
  | nil =>
    intro i width n hi
    have hrun : runLength ranges.base (limit - width) [] = 0 := by
      rw [runLength, take_nil]
      rfl
    rw [hrun, if_pos (by omega), digitLoop]
    simp [Number.keep, leave]
  | cons c input ih =>
    intro i width n hi
    rw [digitLoop]
    by_cases hw : width ≥ limit
    · have hroom : limit - width = 0 := by omega
      have hrun : runLength ranges.base 0 (c :: input) = 0 := rfl
      rw [if_pos hw, hroom, hrun, if_pos (by omega)]
      simp [Number.keep, leave]
    obtain ⟨room, hroom⟩ : ∃ room, limit - width = room + 1 := ⟨limit - width - 1, by omega⟩
    have hroom' : limit - (width + 1) = room := by omega
    rw [if_neg hw, hroom]
    have htake : (c :: input).take (room + 1) = c :: input.take room := rfl
    have hstop : ranges.has c = false → runLength ranges.base (room + 1) (c :: input) = 0 :=
      fun h => by rw [runLength, htake, digitRun_not_has h]; rfl
    by_cases h0 : c = 0
    · have hno : ranges.has c = false := by
        subst h0
        cases ranges <;> rfl
      rw [if_pos h0, hstop hno, if_pos (by omega), h0]
      simp [Number.keep, leave]
    rw [if_neg h0]
    cases hhas : ranges.has c with
    | false =>
      rw [if_pos rfl, hstop hhas, if_pos (by omega)]
      simp [Number.keep, leave, h0]
    | true =>
      obtain ⟨d, hd⟩ := digitRun_has hhas (input.take room)
      have hrun : runLength ranges.base (room + 1) (c :: input) =
          runLength ranges.base room input + 1 := by
        rw [runLength, htake, hd]
        rfl
      rw [if_neg (by simp), hrun]
      by_cases hlast : i + 1 = 2 ^ 31
      · rw [if_pos hlast, if_neg (by omega)]
      rw [if_neg hlast, ih (by omega), hroom', Number.put_keep]
      have hsum : i + 1 + runLength ranges.base room input =
        i + (runLength ranges.base room input + 1) := by omega
      congr 3
      rw [leave, leave, getElem?_cons_succ, drop_succ_cons, drop_succ_cons]
      simp

/-! ## The first round -/

theorem digitLoop_head (limit : Nat) {i : Nat} (hi : i < 28) (width : Nat) (n : Number)
    (input : List UInt8) :
    digitLoop ranges limit i width n input = if width ≥ limit then some (n, input)
      else
        match callGet input with
        | (none, input) => some (n, input)
        | (some c, input) => digitStep ranges limit i (width + 1) n c input := by
  cases input with
  | nil =>
    split <;> rfl
  | cons c input =>
    rw [digitLoop, callGet]
    split
    · rfl
    split
    · rfl
    dsimp only
    rw [digitStep]
    split
    · rfl
    · rw [if_neg (by omega)]

theorem digitStep_eq {i width : Nat} (hi : i < 28) (hw : width < limit) (n : Number) (hc : c ≠ 0)
    (input : List UInt8) :
    digitStep ranges limit i (width + 1) n c input =
      digitLoop ranges limit i width n (c :: input) := by
  rw [digitLoop_head ranges limit hi, if_neg (not_le.2 hw), callGet, if_neg hc]

/-- The code skips a sign, or `0x` for base 0, and then knows the digits. -/
def codeSkip (limit base : Nat) (u : List UInt8) : Nat :=
  if signLength u = 1 then 1 else if base = 0 ∧ hexStart (u.take limit) = true then 2 else 0

def codeRanges (limit base : Nat) (u : List UInt8) : Ranges :=
  if signLength u = 1 then .decimal
  else if base = 0 then
    if hexStart (u.take limit) = true then .hexadecimal
    else if u.getD 0 0 = 48 then .octal
    else .decimal
  else if base = 8 then .octal
  else if base = 16 then .hexadecimal
  else .decimal

/-- `r` after what is skipped: `0x` counts. -/
def codeStart (limit base : Nat) (u : List UInt8) : Nat :=
  if codeSkip limit base u = 2 then 2 else 0

theorem afterZero_eq (hlimit : 0 < limit) (input : List UInt8) :
    afterZero limit input = if hexStart ((48 :: input).take limit) = true then
        digitLoop .hexadecimal limit 2 2 ⟨2, (48 :: input).take 2⟩ ((48 :: input).drop 2)
      else digitLoop .octal limit 0 0 ⟨0, []⟩ (48 :: input) := by
  have hzero : digitLoop .octal limit 0 0 ⟨0, []⟩ (48 :: input) =
      digitLoop .octal limit 1 1 ⟨1, [48]⟩ input := by
    rw [digitLoop, if_neg (by omega), if_neg (by decide), if_neg (by decide), if_neg (by decide)]
    rfl
  rw [hzero, afterZero, digitLoop_head .octal limit (by decide)]
  by_cases h1 : 1 ≥ limit
  · obtain rfl : limit = 1 := by omega
    rfl
  obtain ⟨room, rfl⟩ : ∃ room, limit = room + 2 := ⟨limit - 2, by omega⟩
  rw [if_neg h1, if_neg h1]
  rcases input with _ | ⟨x, input⟩
  · rfl
  rw [callGet]
  by_cases h0 : x = 0
  · rw [if_pos h0, if_neg (by simp [hexStart, h0])]
  rw [if_neg h0]
  dsimp only
  by_cases hx : x = 120 ∨ x = 88
  · have hhex : hexStart ((48 :: x :: input).take (room + 2)) = true := by
      simpa [hexStart] using hx
    rw [if_pos hx, if_pos hhex]
    exact (digitLoop_head .hexadecimal (room + 2) (by decide) 2 _ input).symm
  · have hhex : ¬ hexStart ((48 :: x :: input).take (room + 2)) = true := by
      simpa [hexStart] using hx
    rw [if_neg hx, if_neg hhex]

theorem firstRound_eq {base : Nat} (hlimit : 0 < limit) (hc : c ≠ 0) (input : List UInt8) :
    firstRound limit base c input =
      digitLoop (codeRanges limit base (c :: input)) limit (codeSkip limit base (c :: input))
        (codeSkip limit base (c :: input))
        ⟨codeStart limit base (c :: input), (c :: input).take (codeSkip limit base (c :: input))⟩
        ((c :: input).drop (codeSkip limit base (c :: input))) := by
  have hsign : signLength (c :: input) = if c = 43 ∨ c = 45 then 1 else 0 := rfl
  have hstart : codeStart limit base (c :: input) =
    if codeSkip limit base (c :: input) = 2 then 2 else 0 := rfl
  have hplain : ¬ (c = 43 ∨ c = 45) → ¬ (base = 0 ∧ hexStart ((c :: input).take limit) = true) →
      codeSkip limit base (c :: input) = 0 := fun hs hhex => by
    rw [codeSkip, hsign, if_neg hs, if_neg (by decide : ¬ 0 = 1), if_neg hhex]
  rw [firstRound, codeRanges, hstart]
  by_cases hs : c = 45 ∨ c = 43
  · have hskip : codeSkip limit base (c :: input) = 1 := by
      rw [codeSkip, hsign, if_pos hs.symm, if_pos rfl]
    rw [if_pos hs, hskip, hsign, if_pos hs.symm]
    rfl
  have hs' : ¬ (c = 43 ∨ c = 45) := fun h => hs h.symm
  rw [if_neg hs, hsign, if_neg hs', if_neg (by decide : ¬ 0 = 1)]
  by_cases h0 : base = 0
  · rw [if_pos h0, if_pos h0]
    by_cases hhex : hexStart ((c :: input).take limit) = true
    · have hz : c = 48 := by
        obtain ⟨room, rfl⟩ : ∃ room, limit = room + 1 := ⟨limit - 1, by omega⟩
        simp only [hexStart, Bool.and_eq_true, decide_eq_true_eq] at hhex
        exact hhex.1
      have hskip : codeSkip limit base (c :: input) = 2 := by
        rw [codeSkip, hsign, if_neg hs', if_neg (by decide : ¬ 0 = 1), if_pos ⟨h0, hhex⟩]
      rw [if_pos hhex, hskip, if_pos hz]
      subst hz
      rw [afterZero_eq hlimit, if_pos hhex]
      rfl
    · rw [if_neg hhex, hplain hs' fun h => hhex h.2]
      by_cases hz : c = 48
      · subst hz
        rw [if_pos rfl, afterZero_eq hlimit, if_neg hhex]
        rfl
      · rw [if_neg hz, if_neg (show (c :: input).getD 0 0 ≠ 48 from hz)]
        exact digitStep_eq .decimal (by decide) hlimit _ hc input
  · rw [if_neg h0, if_neg h0, hplain hs' fun h => h0 h.1]
    split
    · exact digitStep_eq .octal (by decide) hlimit _ hc input
    split
    · exact digitStep_eq .hexadecimal (by decide) hlimit _ hc input
    · exact digitStep_eq .decimal (by decide) hlimit _ hc input

/-- What the code takes, from the first character on. -/
def codeRun (limit base : Nat) (u : List UInt8) : Nat :=
  runLength (codeRanges limit base u).base (limit - codeSkip limit base u)
    (u.drop (codeSkip limit base u))

def codeLength (limit base : Nat) (u : List UInt8) : Nat :=
  codeSkip limit base u + codeRun limit base u

theorem codeSkip_le (limit base : Nat) (u : List UInt8) : codeSkip limit base u ≤ 2 := by
  unfold codeSkip
  split_ifs <;> decide

theorem firstRound_item (base : Nat) (hlimit : 0 < limit) (hc : c ≠ 0) (input : List UInt8) :
    firstRound limit base c input = if codeLength limit base (c :: input) < 2 ^ 31 then
        some (⟨codeStart limit base (c :: input) +
            min (codeRun limit base (c :: input)) (28 - codeSkip limit base (c :: input)),
          ((c :: input).take (codeLength limit base (c :: input))).take 28⟩,
          leave limit (codeLength limit base (c :: input)) (c :: input))
      else none := by
  have hskip := codeSkip_le limit base (c :: input)
  rw [firstRound_eq hlimit hc, digitLoop_eq _ _ _ (by omega), ← codeRun]
  rw [codeLength]
  obtain ⟨skip, hs⟩ : ∃ skip, skip = codeSkip limit base (c :: input) := ⟨_, rfl⟩
  obtain ⟨run, hr⟩ : ∃ run, run = codeRun limit base (c :: input) := ⟨_, rfl⟩
  have hle : run ≤ ((c :: input).drop skip).length := by
    have hrun := digitRun_length_le (codeRanges limit base (c :: input)).base
      (((c :: input).drop skip).take (limit - skip))
    rw [length_take] at hrun
    rw [hr, codeRun, ← hs, runLength]
    omega
  rw [← hs, ← hr]
  by_cases hfit : skip + run < 2 ^ 31
  · have hkept : (c :: input).take skip ++ (((c :: input).drop skip).take run).take (28 - skip) =
        ((c :: input).take (skip + run)).take 28 := by
      rw [take_take, take_take, show min 28 (skip + run) = skip + min (28 - skip) run by omega,
        take_add]
    have hleave : leave (limit - skip) run ((c :: input).drop skip) =
        leave limit (skip + run) (c :: input) := by
      rw [leave, leave, getElem?_drop, drop_drop, drop_drop, add_assoc]
      simp only [Nat.lt_sub_iff_add_lt, add_comm run skip]
    rw [Number.keep, length_take, min_eq_left hle, hkept, hleave]
  · rw [if_neg hfit, if_neg hfit]

theorem prefixLength_of {base : Nat} {t : List UInt8} (h : hexPrefixed base t = true) :
    prefixLength base t = 2 ∧ numberBase base t = 16 :=
  ⟨by rw [prefixLength, if_pos h], by rw [numberBase, if_pos h]⟩

theorem prefixLength_of_not {base : Nat} {t : List UInt8} (h : hexPrefixed base t = false) :
    prefixLength base t = 0 ∧
      numberBase base t = if base ≠ 0 then base else if t.getD 0 0 = 48 then 8 else 10 := by
  rw [prefixLength, numberBase, h]
  simp

theorem digitRun_hexStart {b : Nat} {t : List UInt8} (hb : 2 ≤ b) (hle : b ≤ 16)
    (h : hexStart t = true) : (digitRun b t).length = 1 := by
  obtain ⟨x, rest, rfl, hx⟩ := hexStart_cons h
  rw [digitRun_zero hb, digitRun_stop]
  · rfl
  · intro d hd
    rw [hx] at hd
    cases hd
    omega

theorem signLength_take (hlimit : 0 < limit) (u : List UInt8) :
    signLength (u.take limit) = signLength u := by
  obtain ⟨room, rfl⟩ : ∃ room, limit = room + 1 := ⟨limit - 1, by omega⟩
  cases u <;> rfl

/-- The item is the same, and so is whether it matches, just if the prefix and
the sign are as the code has them. -/
theorem codeLength_agrees {base : Nat} (hlimit : 0 < limit)
    (hbase : base = 0 ∨ base = 8 ∨ base = 10 ∨ base = 16) (u : List UInt8) {t : List UInt8}
    (ht : t = u.take limit) :
    (codeLength limit base u = itemLength base t ∧
        (codeStart limit base u + codeRun limit base u ≠ 0 ↔ numberDigits base t ≠ [])) ↔
      ((hexPrefixed base (t.drop (signLength t)) = true →
          base = 0 ∧ signLength t = 0 ∧ numberDigits base t ≠ []) ∧
        (signLength t = 1 → (digitRun 10 (t.drop 1)).length = (numberDigits base t).length)) := by
  have hsign : signLength u = signLength t := by rw [ht, signLength_take hlimit]
  have hrun : codeRun limit base u =
      (digitRun (codeRanges limit base u).base (t.drop (codeSkip limit base u))).length := by
    rw [codeRun, runLength, ht, drop_take]
  have hnil : ∀ ds : List Nat, (ds.length ≠ 0 ↔ ds ≠ []) := fun ds => by
    simp
  rw [codeLength, hrun, codeStart, itemLength]
  have hsgn : signLength t = 0 ∨ signLength t = 1 := by
    unfold signLength
    split <;> simp
  rcases hsgn with hs | hs
  · have hnd : numberDigits base t = digitRun (numberBase base t) (t.drop (prefixLength base t)) := by
      rw [numberDigits, hs]
      rfl
    rw [hs, drop_zero]
    by_cases h0 : base = 0 ∧ hexStart t = true
    · have hhex : hexPrefixed base t = true := by simp [hexPrefixed, h0.1, h0.2]
      have hskip : codeSkip limit base u = 2 := by
        rw [codeSkip, hsign, hs, ← ht, if_neg (by decide), if_pos h0]
      have hranges : codeRanges limit base u = .hexadecimal := by
        rw [codeRanges, hsign, hs, ← ht, if_neg (by decide), if_pos h0.1, if_pos h0.2]
      obtain ⟨hp, hb⟩ := prefixLength_of hhex
      rw [hp, hb] at hnd
      rw [hskip, hranges, hhex, hp, hnd]
      simp [h0.1, Ranges.base]
    · have hskip : codeSkip limit base u = 0 := by
        rw [codeSkip, hsign, hs, ← ht, if_neg (by decide), if_neg h0]
      rw [hskip, drop_zero]
      by_cases hhex : hexPrefixed base t = true
      · -- `0x` for `%x`: the code stops after the `0`
        have h16 : base = 16 ∧ hexStart t = true := by
          simp only [hexPrefixed, Bool.and_eq_true, Bool.or_eq_true, decide_eq_true_eq] at hhex
          exact ⟨hhex.1.resolve_left fun h => h0 ⟨h, hhex.2⟩, hhex.2⟩
        have hranges : codeRanges limit base u = .hexadecimal := by
          rw [codeRanges, hsign, hs, if_neg (by decide), h16.1]
          rfl
        have hone := digitRun_hexStart (b := 16) (by decide) (by decide) h16.2
        rw [hranges, (prefixLength_of hhex).1]
        refine iff_of_false (fun h => ?_) fun h => absurd (h.1 hhex).1 (by omega)
        have := h.1
        rw [show Ranges.hexadecimal.base = 16 from rfl, hone] at this
        omega
      · have hhex : hexPrefixed base t = false := by simpa using hhex
        obtain ⟨hp, hb⟩ := prefixLength_of_not hhex
        have hranges : (codeRanges limit base u).base = numberBase base t := by
          have hnot : base = 0 → ¬ hexStart t = true := fun h hx => h0 ⟨h, hx⟩
          have hhead : u.getD 0 0 = t.getD 0 0 := by
            obtain ⟨room, rfl⟩ : ∃ room, limit = room + 1 := ⟨limit - 1, by omega⟩
            rw [ht]
            cases u <;> rfl
          rw [hb, codeRanges, hsign, hs, ← ht, hhead, if_neg (by decide)]
          rcases hbase with rfl | rfl | rfl | rfl
          · rw [if_pos rfl, if_neg (hnot rfl), if_neg (not_not_intro rfl : ¬ 0 ≠ 0)]
            split <;> rfl
          all_goals rfl
        rw [hp, drop_zero] at hnd
        rw [hranges, hp, hnd, hhex]
        simp
  · have hskip : codeSkip limit base u = 1 := by rw [codeSkip, hsign, if_pos hs]
    have hranges : codeRanges limit base u = .decimal := by rw [codeRanges, hsign, if_pos hs]
    rw [hskip, hranges, hs]
    by_cases hhex : hexPrefixed base (t.drop 1) = true
    · have hstart : hexStart (t.drop 1) = true := by
        simp only [hexPrefixed, Bool.and_eq_true] at hhex
        exact hhex.2
      have hone := digitRun_hexStart (b := 10) (by decide) (by decide) hstart
      rw [(prefixLength_of hhex).1]
      refine iff_of_false (fun h => ?_) fun h => absurd (h.1 hhex).2.1 (by decide)
      have := h.1
      rw [show Ranges.decimal.base = 10 from rfl, hone] at this
      omega
    · have hhex : hexPrefixed base (t.drop 1) = false := by simpa using hhex
      rw [(prefixLength_of_not hhex).1, hhex, ← hnil]
      simp only [Bool.false_eq_true, false_implies, true_and, true_implies, Ranges.base, if_neg (by decide : ¬ 1 = 2)]
      omega

/-! ## The value -/

theorem hexStart_length {t : List UInt8} (h : hexStart t = true) : 2 ≤ t.length := by
  obtain ⟨x, rest, rfl, -⟩ := hexStart_cons h
  simp

theorem hexPrefixed_start {base : Nat} {t : List UInt8} (h : hexPrefixed base t = true) :
    hexStart t = true := by
  rw [hexPrefixed, Bool.and_eq_true] at h
  exact h.2

theorem signLength_le (t : List UInt8) : signLength t ≤ 1 := by
  unfold signLength
  split <;> decide

theorem signLength_length (t : List UInt8) : signLength t ≤ t.length := by
  cases t with
  | nil => rfl
  | cons c t => exact Nat.le_trans (signLength_le _) (Nat.succ_le_succ (Nat.zero_le _))

theorem prefixLength_length (base : Nat) (t : List UInt8) : prefixLength base t ≤ t.length := by
  rw [prefixLength]
  split
  · rename_i h
    exact hexStart_length (hexPrefixed_start h)
  · omega

theorem itemLength_le (base : Nat) (t : List UInt8) : itemLength base t ≤ t.length := by
  have h1 := signLength_length t
  have h2 := prefixLength_length base (t.drop (signLength t))
  have h3 : (numberDigits base t).length ≤ _ := digitRun_length_le _ _
  rw [length_drop] at h2
  rw [length_drop, length_drop] at h3
  rw [itemLength]
  omega

def room (base : Nat) (t : List UInt8) : Nat :=
  28 - signLength t - prefixLength base (t.drop (signLength t))

def keptMagnitude (base : Nat) (t : List UInt8) : Nat :=
  Nat.ofDigits (numberBase base (t.drop (signLength t)))
    ((numberDigits base t).take (room base t)).reverse

theorem keptMagnitude_spec {base : Nat} (hbase : base = 0 ∨ 2 ≤ base) (t : List UInt8) :
    ((numberDigits base t).length ≤ room base t → keptMagnitude base t = magnitude base t) ∧
      (room base t < (numberDigits base t).length →
        2 * keptMagnitude base t ≤ magnitude base t) := by
  constructor
  · intro hle
    rw [keptMagnitude, take_of_length_le hle, magnitude]
  intro hlt
  obtain ⟨b, hb⟩ : ∃ b, b = numberBase base (t.drop (signLength t)) := ⟨_, rfl⟩
  have htwo : 2 ≤ b := by
    rw [hb]
    unfold numberBase
    split_ifs <;> omega
  obtain ⟨xs, hxs⟩ : ∃ xs, xs = (numberDigits base t).take (room base t) := ⟨_, rfl⟩
  obtain ⟨ys, hys⟩ : ∃ ys, ys = (numberDigits base t).drop (room base t) := ⟨_, rfl⟩
  have hsplit : numberDigits base t = xs ++ ys := by simp [hxs, hys]
  have hpos : 1 ≤ ys.length := by
    rw [hys, length_drop]
    omega
  have hall : magnitude base t = readOn b (readOn b 0 xs) ys := by
    rw [magnitude, ← hb, ← readOn_zero, hsplit, readOn, foldl_append]
    rfl
  have hkept : keptMagnitude base t = readOn b 0 xs := by
    rw [keptMagnitude, ← hb, ← hxs, readOn_zero]
  have hpow : 2 ≤ b ^ ys.length := le_trans htwo (Nat.le_self_pow (by omega) b)
  have hmul := Nat.mul_le_mul_left (readOn b 0 xs) hpow
  rw [hall, hkept, readOn_eq ys]
  omega

theorem getD_take {t : List UInt8} {m j : Nat} (h : j < m) : (t.take m).getD j 0 = t.getD j 0 := by
  simp [getElem?_take, if_pos h]

theorem buffer_subject {base : Nat} {t : List UInt8} (hc : t.head? = some c)
    (hspace : isspace c = false) (hds : numberDigits base t ≠ []) :
    signAt ((t.take (itemLength base t)).take 28) = 0 ∧
      ((t.take (itemLength base t)).take 28).getD 0 0 = c ∧
      digitsAt ((t.take (itemLength base t)).take 28) = signLength t ∧
      subjectDigits base (((t.take (itemLength base t)).take 28).drop (signLength t)) =
        (numberDigits base t).take (room base t) ∧
      baseOf base (((t.take (itemLength base t)).take 28).drop (signLength t)) =
        numberBase base (t.drop (signLength t)) := by
  have hsgn := signLength_le t
  have hpos : 1 ≤ (numberDigits base t).length := length_pos_iff.2 hds
  have hlen : itemLength base t = signLength t + prefixLength base (t.drop (signLength t)) +
    (numberDigits base t).length := rfl
  obtain ⟨rest, rfl⟩ : ∃ rest, t = c :: rest := by
    cases t with
    | nil => cases hc
    | cons d rest =>
      cases hc
      simp
  obtain ⟨k, hk⟩ : ∃ k, min 28 (itemLength base (c :: rest)) = k + 1 :=
    ⟨min 28 (itemLength base (c :: rest)) - 1, by omega⟩
  rw [take_take, hk]
  have hat : signAt ((c :: rest).take (k + 1)) = 0 := by
    rw [signAt, take_succ_cons, takeWhile_cons, hspace]
    rfl
  have hhead : ((c :: rest).take (k + 1)).getD 0 0 = c := rfl
  refine ⟨hat, hhead, ?_, ?_⟩
  · rw [digitsAt, hat, hhead, signLength]
    rfl
  obtain ⟨body, hbody⟩ : ∃ body, body = (c :: rest).drop (signLength (c :: rest)) := ⟨_, rfl⟩
  obtain ⟨m, hm⟩ : ∃ m, m = k + 1 - signLength (c :: rest) := ⟨_, rfl⟩
  have hnd : numberDigits base (c :: rest) =
      digitRun (numberBase base body) (body.drop (prefixLength base body)) := by
    rw [numberDigits, hbody]
  have hroom : room base (c :: rest) = 28 - signLength (c :: rest) - prefixLength base body := by
    rw [room, hbody]
  rw [← hbody] at hlen
  rw [drop_take, ← hbody, ← hm]
  have hcut : ∀ j, m = j + prefixLength base body →
      digitRun (numberBase base body) ((body.drop (prefixLength base body)).take j) =
        (numberDigits base (c :: rest)).take (room base (c :: rest)) := fun j hj => by
    rw [digitRun_take, ← hnd, hroom]
    exact take_eq_take_iff.2 (by omega)
  by_cases hhex : hexPrefixed base body = true
  · obtain ⟨hp, hb⟩ := prefixLength_of hhex
    rw [hp] at hlen hcut
    rw [hb] at hcut ⊢
    obtain ⟨j, rfl⟩ : ∃ j, m = j + 2 := ⟨m - 2, by omega⟩
    have hdigits := hcut j rfl
    have hdrop : (body.take (j + 2)).drop 2 = (body.drop 2).take j := by
      rw [drop_take, Nat.add_sub_cancel]
    have hallowed : hexAllowed base (body.take (j + 2)) = true := by
      have hne : (numberDigits base (c :: rest)).take (room base (c :: rest)) ≠ [] := by
        intro hnil
        rcases take_eq_nil_iff.1 hnil with h | h
        · omega
        · exact hds h
      rw [hexPrefixed, Bool.and_eq_true] at hhex
      rw [hexAllowed, hhex.1, hdrop, hdigits, hexStart, getD_take (by omega), getD_take (by omega),
        ← hexStart, hhex.2, decide_eq_true hne]
      rfl
    obtain ⟨h1, h2, -⟩ := subject_of_allowed hallowed
    rw [h1, h2, hdrop, hdigits]
    simp
  · have hhex : hexPrefixed base body = false := by simpa using hhex
    obtain ⟨hp, hb⟩ := prefixLength_of_not hhex
    rw [hp] at hlen hcut
    have hno : hexAllowed base (body.take m) = false := by
      rw [hexPrefixed, Bool.and_eq_false_iff] at hhex
      rw [hexAllowed, Bool.and_eq_false_iff, Bool.and_eq_false_iff]
      rcases hhex with h | h
      · exact .inl (.inl h)
      refine .inl (.inr ?_)
      by_cases h2 : 2 ≤ m
      · rw [hexStart, getD_take (by omega), getD_take (by omega), ← hexStart, h]
      · obtain rfl : m = 1 := by omega
        cases body <;> simp [hexStart]
    have hbase : baseOf base (body.take m) = numberBase base body := by
      rw [hb, baseOf, hno, getD_take (by omega)]
      rfl
    obtain ⟨h1, -⟩ := subject_of_not_allowed hno
    have hdigits := hcut m rfl
    rw [drop_zero] at hdigits
    rw [h1, hbase, hdigits]
    simp

theorem room_pos (base : Nat) (t : List UInt8) : room base t ≠ 0 := by
  have h1 := signLength_le t
  have h2 : prefixLength base (t.drop (signLength t)) ≤ 2 := by
    unfold prefixLength
    split <;> decide
  rw [room]
  omega

theorem strto_buffer {base : Nat} (hbase : base = 0 ∨ 2 ≤ base ∧ base ≤ 36) {t : List UInt8}
    (hc : t.head? = some c) (hspace : isspace c = false) (hds : numberDigits base t ≠ []) :
    (strtoll ((t.take (itemLength base t)).take 28) base).value = (saturate (-2 ^ 63) (2 ^ 63 - 1)
        (if c = 45 then -keptMagnitude base t else keptMagnitude base t)).1 ∧
      (keptMagnitude base t < 2 ^ 64 →
        (strtoull ((t.take (itemLength base t)).take 28) base).value =
          (if c = 45 then -keptMagnitude base t else keptMagnitude base t : Int) % 2 ^ 64) := by
  obtain ⟨hsign, hhead, hat, hdigits, hb⟩ := buffer_subject hc hspace hds
  have hne : (numberDigits base t).take (room base t) ≠ [] := fun hnil => by
    rcases take_eq_nil_iff.1 hnil with h | h
    · exact room_pos base t h
    · exact hds h
  constructor
  · rw [strtoll, strtoSigned_eq (by decide) hbase, strtoReference]
    rw [hat, hsign, hhead, hdigits, hb, if_neg hne, ← keptMagnitude]
  · intro hfit
    have h := strtoull_eq hbase
      (by rw [hat, hdigits]; exact hne) (by rw [hat, hdigits, hb]; rfl) hfit
    rwa [hsign, hhead] at h

/-! ## What is stored -/

/-- The kept number `k` stands for `n` (`short`), or it is half of it at most. -/
structure Kept28 (short : Prop) (k n : Nat) : Prop where
  exact : short → k = n
  half : ¬ short → 2 * k ≤ n

theorem Kept28.le {short : Prop} {k n : Nat} (h : Kept28 short k n) : k ≤ n := by
  by_cases hs : short
  · exact le_of_eq (h.exact hs)
  · have := h.half hs
    omega

theorem Kept28.eq_iff {short : Prop} {k n : Nat} (h : Kept28 short k n) :
    k = n ↔ short ∨ n = 0 := by
  by_cases hs : short
  · exact iff_of_true (h.exact hs) (.inl hs)
  have := h.half hs
  constructor
  · intro hk
    omega
  · rintro (hs' | hn)
    · exact absurd hs' hs
    · omega

theorem emod_eq_iff {m v w : Int} (h1 : v - w < m) (h2 : w - v < m) : v % m = w % m ↔ v = w := by
  constructor
  · intro h
    have hdvd := Int.dvd_of_emod_eq_zero (Int.emod_eq_emod_iff_emod_sub_eq_zero.1 h)
    have hzero := Int.eq_zero_of_abs_lt_dvd hdvd (abs_lt.2 ⟨by omega, h1⟩)
    omega
  · exact fun h => by rw [h]

def withSign (neg : Prop) [Decidable neg] (n : Nat) : Int := if neg then -n else n

variable {short neg : Prop} [Decidable neg] {k n bits : Nat}

theorem withSign_cases (neg : Prop) [Decidable neg] :
    (∀ n, withSign neg n = -n) ∨ ∀ n, withSign neg n = n := by
  by_cases h : neg
  · exact .inl fun n => if_pos h
  · exact .inr fun n => if_neg h

theorem withSign_emod_iff {m : Int} (hk : k < m) (hn : n < m) :
    withSign neg k % m = withSign neg n % m ↔ k = n := by
  rw [emod_eq_iff (by unfold withSign; split <;> omega) (by unfold withSign; split <;> omega)]
  unfold withSign
  split <;> omega

theorem saturate_withSign (hlow : -2 ^ 63 ≤ withSign neg n) (hhigh : withSign neg n < 2 ^ 63)
    (hle : k ≤ n) : (saturate (-2 ^ 63) (2 ^ 63 - 1) (withSign neg k)).1 = withSign neg k := by
  have hin : ¬ withSign neg k < -2 ^ 63 ∧ ¬ withSign neg k > 2 ^ 63 - 1 := by
    rcases withSign_cases neg with hs | hs <;> rw [hs] at hlow hhigh ⊢ <;> omega
  rw [saturate, if_neg hin.1, if_neg hin.2]

section

variable (h : Kept28 short k n) (hbits : bits = 8 ∨ bits = 16 ∨ bits = 32 ∨ bits = 64)
include h hbits

theorem Kept28.signed (hlow : -2 ^ (bits - 1) ≤ withSign neg n)
    (hhigh : withSign neg n < 2 ^ (bits - 1)) :
    (saturate (-2 ^ 63) (2 ^ 63 - 1) (withSign neg k)).1 % 2 ^ bits = withSign neg n % 2 ^ bits ↔
      short ∨ n = 0 := by
  have hle := h.le
  obtain ⟨hn, h63⟩ : (n : Int) < 2 ^ bits ∧ (2 : Int) ^ (bits - 1) ≤ 2 ^ 63 := by
    rcases withSign_cases neg with hs | hs <;> rw [hs] at hlow hhigh <;>
      rcases hbits with rfl | rfl | rfl | rfl <;> exact ⟨by omega, by decide⟩
  rw [saturate_withSign (Int.le_trans (Int.neg_le_neg h63) hlow) (Int.lt_of_lt_of_le hhigh h63) hle,
    withSign_emod_iff (by omega) hn, h.eq_iff]

theorem Kept28.unsigned (hn : (n : Int) < 2 ^ bits) :
    withSign neg k % 2 ^ 64 % 2 ^ bits = withSign neg n % 2 ^ bits ↔ short ∨ n = 0 := by
  have hle := h.le
  have hdvd : (2 : Int) ^ bits ∣ 2 ^ 64 := pow_dvd_pow 2 (by omega)
  rw [Int.emod_emod_of_dvd _ hdvd, withSign_emod_iff (by omega) hn, h.eq_iff]

theorem Kept28.octal (hn : (n : Int) < 2 ^ bits) :
    (saturate (-2 ^ 63) (2 ^ 63 - 1) (withSign neg k)).1 % 2 ^ bits = withSign neg n % 2 ^ bits ↔
      (-2 ^ 63 ≤ withSign neg n ∧ withSign neg n < 2 ^ 63) ∧ (short ∨ n = 0) := by
  have hle := h.le
  by_cases hrange : -2 ^ 63 ≤ withSign neg n ∧ withSign neg n < 2 ^ 63
  · rw [saturate_withSign hrange.1 hrange.2 hle, withSign_emod_iff (by omega) hn, h.eq_iff,
      and_iff_right hrange]
  refine iff_of_false (fun heq => hrange ?_) fun hr => hrange hr.1
  have hbig : 2 ^ 63 ≤ n := by
    unfold withSign at hrange
    split at hrange <;> omega
  obtain rfl : bits = 64 := by rcases hbits with rfl | rfl | rfl | rfl <;> omega
  by_cases hs : short
  · unfold saturate withSign at heq
    unfold withSign
    split_ifs at heq ⊢ <;> omega
  have hhalf := h.half hs
  have hk : -2 ^ 63 ≤ withSign neg k ∧ withSign neg k < 2 ^ 63 := by
    unfold withSign
    split <;> omega
  rw [saturate_withSign hk.1 hk.2 (le_refl k), withSign_emod_iff (by omega) hn] at heq
  omega

end

theorem item_ne_zero {base : Nat} {t : List UInt8} {j : Nat} (hj : j < itemLength base t) :
    t[j]? ≠ some 0 := by
  intro hzero
  obtain ⟨body, hbody⟩ : ∃ body, body = t.drop (signLength t) := ⟨_, rfl⟩
  rw [itemLength, numberDigits, ← hbody] at hj
  by_cases hsign : j < signLength t
  · have hj0 : j = 0 := by
      have := signLength_le t
      omega
    rw [hj0] at hzero hsign
    have hhead : t.getD 0 0 = 0 := by rw [getD_eq_getElem?_getD, hzero]; rfl
    rw [signLength, hhead, if_neg (by decide)] at hsign
    omega
  obtain ⟨i, rfl⟩ : ∃ i, j = signLength t + i := ⟨j - signLength t, by omega⟩
  rw [← getElem?_drop, ← hbody] at hzero
  by_cases hp : i < prefixLength base body
  · cases hhex : hexPrefixed base body with
    | false =>
      rw [(prefixLength_of_not hhex).1] at hp
      omega
    | true =>
      obtain ⟨x, rest, hx, hdigit⟩ := hexStart_cons (hexPrefixed_start hhex)
      rw [(prefixLength_of hhex).1] at hp
      rw [hx] at hzero
      rcases i with _ | _ | i
      · cases hzero
      · cases hzero
        cases hdigit
      · omega
  · obtain ⟨i, rfl⟩ : ∃ k, i = prefixLength base body + k := ⟨i - prefixLength base body, by omega⟩
    rw [← getElem?_drop] at hzero
    obtain ⟨c, d, hc, hd, -⟩ := digitRun_get
      (show i < (digitRun (numberBase base body) (body.drop (prefixLength base body))).length by
        omega)
    rw [hc] at hzero
    cases hzero
    cases hd

/-- The same is left just if the lengths are the same, and no zero is lost. -/
theorem leave_eq_iff (limit : Nat) {k len : Nat} {u : List UInt8} (hk : k ≤ u.length) (hlen : len ≤ u.length)
    (hzero : ∀ j, j < len → u[j]? ≠ some 0) :
    leave limit k u = u.drop len ↔ k = len ∧ (len < limit → u[len]? ≠ some 0) := by
  rw [leave]
  by_cases hlost : k < limit ∧ u[k]? = some 0
  · have hlt : k < u.length := by
      by_contra hge
      rw [getElem?_eq_none (not_lt.1 hge)] at hlost
      cases hlost.2
    rw [if_pos hlost]
    refine iff_of_false (fun h => ?_) fun h => h.2 (h.1 ▸ hlost.1) (h.1 ▸ hlost.2)
    have hl := congrArg List.length h
    rw [length_drop, length_drop] at hl
    exact hzero k (by omega) hlost.2
  · rw [if_neg hlost]
    constructor
    · intro h
      have hl := congrArg List.length h
      rw [length_drop, length_drop] at hl
      obtain rfl : k = len := by omega
      exact ⟨rfl, fun h h' => hlost ⟨h, h'⟩⟩
    · exact fun h => by rw [h.1]

theorem codeLength_le (limit base : Nat) {u : List UInt8} (hu : u ≠ []) :
    codeLength limit base u ≤ u.length := by
  have hskip : codeSkip limit base u ≤ u.length := by
    have hpos := length_pos_iff.2 hu
    rw [codeSkip]
    split_ifs with h1 h2
    · exact hpos
    · have := hexStart_length h2.2
      rw [length_take] at this
      omega
    · omega
  have hrun := digitRun_length_le (codeRanges limit base u).base
    ((u.drop (codeSkip limit base u)).take (limit - codeSkip limit base u))
  rw [length_take, length_drop] at hrun
  rw [codeLength, codeRun, runLength]
  omega

/-- The condition, for the field `t` at the start of `u`. -/
structure PlainField (conv : Conversion) (bits limit : Nat) (u t : List UInt8) : Prop where
  hexPrefixed : hexPrefixed conv.base (t.drop (signLength t)) = true →
    conv.base = 0 ∧ signLength t = 0 ∧ numberDigits conv.base t ≠ []
  signed : signLength t = 1 → (digitRun 10 (t.drop 1)).length = (numberDigits conv.base t).length
  next : itemLength conv.base t < limit → u[itemLength conv.base t]? ≠ some 0
  short : itemLength conv.base t < 2 ^ 31
  value : numberDigits conv.base t ≠ [] → Representable conv bits t →
    (conv = .o → -2 ^ 63 ≤ numberValue conv.base t ∧ numberValue conv.base t < 2 ^ 63) ∧
      (itemLength conv.base t ≤ 28 ∨ magnitude conv.base t = 0)

def FieldResult (conv : Conversion) (bits : Nat) (u t : List UInt8)
    (r : Option (Option Int × List UInt8)) : Prop :=
  ∃ stored rest, r = some (stored, rest) ∧ rest = u.drop (itemLength conv.base t) ∧
    (stored.isSome ↔ numberDigits conv.base t ≠ []) ∧
    ∀ v, stored = some v → Representable conv bits t → v = numberValue conv.base t % 2 ^ bits

theorem Conversion.base_cases (conv : Conversion) :
    conv.base = 0 ∨ conv.base = 8 ∨ conv.base = 10 ∨ conv.base = 16 := by
  cases conv <;> simp [Conversion.base]

theorem LengthModifier.bits_cases (a : Arch) (length : LengthModifier) :
    length.bits a = 8 ∨ length.bits a = 16 ∨ length.bits a = 32 ∨ length.bits a = 64 := by
  cases a <;> cases length <;> simp [LengthModifier.bits, Arch.word]

theorem writeInteger_iff {conv : Conversion} {bits : Nat}
    (hbits : bits = 8 ∨ bits = 16 ∨ bits = 32 ∨ bits = 64) {t : List UInt8} {c : UInt8}
    (hc : t.head? = some c) (hspace : isspace c = false) (hds : numberDigits conv.base t ≠ [])
    (hrep : Representable conv bits t) :
    writeInteger bits (conv.value ((t.take (itemLength conv.base t)).take 28)) =
        numberValue conv.base t % 2 ^ bits ↔
      (conv = .o → -2 ^ 63 ≤ numberValue conv.base t ∧ numberValue conv.base t < 2 ^ 63) ∧
        (itemLength conv.base t ≤ 28 ∨ magnitude conv.base t = 0) := by
  have hbase := conv.base_cases
  have hrange : conv.base = 0 ∨ 2 ≤ conv.base ∧ conv.base ≤ 36 := by omega
  obtain ⟨hexact, hhalf⟩ := keptMagnitude_spec (by omega : conv.base = 0 ∨ 2 ≤ conv.base) t
  have hroom : itemLength conv.base t ≤ 28 ↔
      (numberDigits conv.base t).length ≤ room conv.base t := by
    have h1 := signLength_le t
    have h2 : prefixLength conv.base (t.drop (signLength t)) ≤ 2 := by
      unfold prefixLength
      split <;> decide
    rw [itemLength, room]
    omega
  have hkept : Kept28 (itemLength conv.base t ≤ 28) (keptMagnitude conv.base t)
      (magnitude conv.base t) :=
    ⟨fun h => hexact (hroom.1 h), fun h => hhalf (not_le.1 fun h' => h (hroom.2 h'))⟩
  have hhead : t.getD 0 0 = c := by
    cases t with
    | nil => cases hc
    | cons d rest =>
      cases hc
      rfl
  obtain ⟨hll, hull⟩ := strto_buffer hrange hc hspace hds
  have hsign : numberValue conv.base t = withSign (c = 45) (magnitude conv.base t) := by
    rw [numberValue, hhead]
    rfl
  have hsigned : (∀ buffer, conv.value buffer = (strtoll buffer conv.base).value) → conv ≠ .o →
      -2 ^ (bits - 1) ≤ numberValue conv.base t ∧ numberValue conv.base t < 2 ^ (bits - 1) →
      (writeInteger bits (conv.value ((t.take (itemLength conv.base t)).take 28)) =
          numberValue conv.base t % 2 ^ bits ↔
        (conv = .o → -2 ^ 63 ≤ numberValue conv.base t ∧ numberValue conv.base t < 2 ^ 63) ∧
          (itemLength conv.base t ≤ 28 ∨ magnitude conv.base t = 0)) := fun hvalue ho hrep => by
    rw [hsign] at hrep
    rw [writeInteger, hvalue, hsign, hll, and_iff_right fun h => absurd h ho]
    exact hkept.signed hbits hrep.1 hrep.2
  have hunsigned : (∀ buffer, conv.value buffer = (strtoull buffer conv.base).value) → conv ≠ .o →
      (magnitude conv.base t : Int) < 2 ^ bits →
      (writeInteger bits (conv.value ((t.take (itemLength conv.base t)).take 28)) =
          numberValue conv.base t % 2 ^ bits ↔
        (conv = .o → -2 ^ 63 ≤ numberValue conv.base t ∧ numberValue conv.base t < 2 ^ 63) ∧
          (itemLength conv.base t ≤ 28 ∨ magnitude conv.base t = 0)) := fun hvalue ho hrep => by
    have hle := hkept.le
    have hfit : keptMagnitude conv.base t < 2 ^ 64 := by
      rcases hbits with rfl | rfl | rfl | rfl <;> omega
    rw [writeInteger, hvalue, hsign, hull hfit, and_iff_right fun h => absurd h ho]
    exact hkept.unsigned hbits hrep
  cases conv with
  | d | i => exact hsigned (fun _ => rfl) (by decide) hrep
  | o =>
    rw [writeInteger, hsign]
    refine (Eq.congr_left (congrArg (· % (2 : Int) ^ bits) hll)).trans ?_
    exact (hkept.octal hbits hrep).trans (and_congr_left' (by simp))
  | u | x => exact hunsigned (fun _ => rfl) (by decide) hrep

/-- What a conversion makes of the result of `get_number`. -/
def converted (conv : Conversion) (bits : Nat) (r : Option (Number × List UInt8)) :
    Option (Option Int × List UInt8) :=
  match r with
  | none => none
  | some (n, input) =>
    if n.r = 0 then some (none, input)
    else some (some (writeInteger bits (conv.value n.buffer)), input)

theorem firstRound_iff {conv : Conversion} {bits limit : Nat}
    (hbits : bits = 8 ∨ bits = 16 ∨ bits = 32 ∨ bits = 64) (hlimit : 0 < limit) {c : UInt8}
    (hc : c ≠ 0) (hspace : isspace c = false) (input : List UInt8) :
    FieldResult conv bits (c :: input) ((c :: input).take limit)
        (converted conv bits (firstRound limit conv.base c input)) ↔
      PlainField conv bits limit (c :: input) ((c :: input).take limit) := by
  obtain ⟨u, hu⟩ : ∃ u, u = c :: input := ⟨_, rfl⟩
  obtain ⟨t, ht⟩ : ∃ t, t = u.take limit := ⟨_, rfl⟩
  have hagree := codeLength_agrees hlimit conv.base_cases u ht
  have hround := firstRound_item conv.base hlimit hc input
  have hskip := codeSkip_le limit conv.base u
  have hcode : codeLength limit conv.base u ≤ u.length :=
    codeLength_le limit conv.base (by rw [hu]; simp)
  have hcut : u.take (itemLength conv.base t) = t.take (itemLength conv.base t) := by
    have hle := itemLength_le conv.base t
    rw [ht, length_take] at hle
    rw [ht, take_take, min_eq_left (by omega)]
  have hitem : itemLength conv.base t ≤ u.length := by
    have hle := itemLength_le conv.base t
    rw [ht, length_take] at hle
    rw [ht]
    omega
  have hzero : ∀ j, j < itemLength conv.base t → u[j]? ≠ some 0 := fun j hj h => by
    refine item_ne_zero hj ?_
    have hle := itemLength_le conv.base t
    rw [ht, length_take] at hle
    rw [ht] at hj ⊢
    rwa [getElem?_take, if_pos (by omega)]
  have hhead : t.head? = some c := by
    obtain ⟨room, rfl⟩ : ∃ room, limit = room + 1 := ⟨limit - 1, by omega⟩
    rw [ht, hu]
    rfl
  rw [← hu, ← ht]
  rw [← hu] at hround
  rw [hround]
  by_cases hshort : codeLength limit conv.base u < 2 ^ 31
  · rw [if_pos hshort]
    have hleft := leave_eq_iff limit hcode hitem hzero
    have hr : codeStart limit conv.base u +
        min (codeRun limit conv.base u) (28 - codeSkip limit conv.base u) = 0 ↔
        ¬ codeStart limit conv.base u + codeRun limit conv.base u ≠ 0 := by omega
    constructor
    · rintro ⟨stored, rest, hres, hrest, hmatch, hvalue⟩
      rw [converted] at hres
      by_cases hno : codeStart limit conv.base u +
          min (codeRun limit conv.base u) (28 - codeSkip limit conv.base u) = 0
      · rw [if_pos hno] at hres
        cases hres
        obtain ⟨hlen, hnext⟩ := hleft.1 hrest
        have hnil : ¬ numberDigits conv.base t ≠ [] := fun h => by simpa using hmatch.2 h
        obtain ⟨hhex, hsigned⟩ := hagree.1 ⟨hlen, iff_of_false (hr.1 hno) hnil⟩
        exact ⟨hhex, hsigned, hnext, hlen ▸ hshort, fun h => absurd h hnil⟩
      · rw [if_neg hno] at hres
        cases hres
        obtain ⟨hlen, hnext⟩ := hleft.1 hrest
        have hds := hmatch.1 rfl
        obtain ⟨hhex, hsigned⟩ := hagree.1 ⟨hlen, iff_of_true (by omega) hds⟩
        refine ⟨hhex, hsigned, hnext, hlen ▸ hshort, fun _ hrep => ?_⟩
        have hv := hvalue _ rfl hrep
        rw [hlen, hcut] at hv
        exact (writeInteger_iff hbits hhead hspace hds hrep).1 hv
    · intro hp
      obtain ⟨hlen, hmatch⟩ := hagree.2 ⟨hp.hexPrefixed, hp.signed⟩
      have hrest := hleft.2 ⟨hlen, hp.next⟩
      rw [converted]
      by_cases hno : codeStart limit conv.base u +
          min (codeRun limit conv.base u) (28 - codeSkip limit conv.base u) = 0
      · rw [if_pos hno]
        refine ⟨none, _, rfl, hrest, iff_of_false (by simp) fun h => hr.1 hno (hmatch.2 h), ?_⟩
        intro v hv
        cases hv
      rw [if_neg hno]
      have hds := hmatch.1 (by omega)
      refine ⟨some _, _, rfl, hrest, iff_of_true rfl hds, fun v hv hrep => ?_⟩
      cases hv
      rw [hlen, hcut]
      exact (writeInteger_iff hbits hhead hspace hds hrep).2 (hp.value hds hrep)
  · rw [if_neg hshort]
    refine iff_of_false ?_ fun hp => hshort ?_
    · rintro ⟨stored, rest, hres, -⟩
      cases hres
    · rw [(hagree.2 ⟨hp.hexPrefixed, hp.signed⟩).1]
      exact hp.short

/-! ## Without a width -/

theorem hexPrefixed_take {base m : Nat} (hm : 2 ≤ m) (t : List UInt8) :
    hexPrefixed base (t.take m) = hexPrefixed base t := by
  rw [hexPrefixed, hexPrefixed, hexStart, getD_take (by omega), getD_take (by omega), ← hexStart]

/-- A field that is longer than its item may be cut. -/
structure SameItem (base : Nat) (t u : List UInt8) : Prop where
  head : t.getD 0 0 = u.getD 0 0
  hexPrefixed : hexPrefixed base (t.drop (signLength u)) = hexPrefixed base (u.drop (signLength u))
  numberBase : numberBase base (t.drop (signLength u)) = numberBase base (u.drop (signLength u))
  digits : numberDigits base t = numberDigits base u
  decimal : signLength u = 1 → ((digitRun 10 (t.drop 1)).length = (numberDigits base u).length ↔
      (digitRun 10 (u.drop 1)).length = (numberDigits base u).length)

variable {base : Nat} {t u : List UInt8}

section

variable (h : SameItem base t u)
include h

theorem SameItem.sign : signLength t = signLength u := by
  rw [signLength, h.head]
  rfl

theorem SameItem.length : itemLength base t = itemLength base u := by
  rw [itemLength, itemLength, h.digits, h.sign, prefixLength, h.hexPrefixed]
  rfl

theorem SameItem.magnitude : magnitude base t = magnitude base u := by
  rw [Libc.magnitude, Libc.magnitude, h.digits, h.sign, h.numberBase]

theorem SameItem.value : numberValue base t = numberValue base u := by
  rw [numberValue, numberValue, h.head, h.magnitude]

end

theorem sameItem_take {m : Nat} (hm : 4 ≤ m) (hlt : itemLength base u < m) :
    SameItem base (u.take m) u := by
  have hsgn := signLength_le u
  have hhead : (u.take m).getD 0 0 = u.getD 0 0 := getD_take (by omega)
  have hsign : signLength (u.take m) = signLength u := by
    rw [signLength, hhead]
    rfl
  have hbody : (u.take m).drop (signLength u) = (u.drop (signLength u)).take (m - signLength u) :=
    drop_take ..
  have hhex : hexPrefixed base ((u.take m).drop (signLength u)) =
      hexPrefixed base (u.drop (signLength u)) := by
    rw [hbody, hexPrefixed_take (by omega)]
  have hbase : numberBase base ((u.take m).drop (signLength u)) =
      numberBase base (u.drop (signLength u)) := by
    rw [numberBase, numberBase, hhex, hbody, getD_take (by omega)]
  refine ⟨hhead, hhex, hbase, ?_, fun hone => ?_⟩
  · rw [itemLength] at hlt
    rw [numberDigits, hsign, hbase, prefixLength, hhex, ← prefixLength, hbody, drop_take,
      digitRun_take, take_of_length_le]
    · rfl
    · show (numberDigits base u).length ≤ _
      omega
  · rw [itemLength] at hlt
    rw [drop_take, digitRun_take, length_take]
    omega

variable {conv : Conversion}

section

variable (h : SameItem conv.base t u)
include h

theorem SameItem.representable (bits : Nat) :
    Representable conv bits t ↔ Representable conv bits u := by
  have hv := h.value
  have hm := h.magnitude
  cases conv with
  | d => simp [Representable, hv]
  | i => rw [Representable, Representable, hv]
  | o | x => simp [Representable, hm]
  | u => rw [Representable, Representable, hm]

theorem SameItem.fieldResult {bits : Nat} {v : List UInt8} {r : Option (Option Int × List UInt8)} :
    FieldResult conv bits v t r ↔ FieldResult conv bits v u r := by
  rw [FieldResult, FieldResult, h.length, h.digits, h.value]
  simp only [h.representable]

theorem SameItem.plainField {bits limit : Nat} {v : List UInt8} :
    PlainField conv bits limit v t ↔ PlainField conv bits limit v u := by
  have hdecimal : (signLength u = 1 → (digitRun 10 (t.drop 1)).length =
      (numberDigits conv.base u).length) ↔ (signLength u = 1 → (digitRun 10 (u.drop 1)).length =
      (numberDigits conv.base u).length) := forall_congr' h.decimal
  constructor
  · intro hp
    have h1 := hp.hexPrefixed
    have h2 := hp.signed
    have h3 := hp.next
    have h4 := hp.short
    have h5 := hp.value
    rw [h.sign, h.digits] at h1 h2
    rw [h.hexPrefixed] at h1
    rw [h.length] at h3 h4
    rw [h.digits, h.representable, h.value, h.length, h.magnitude] at h5
    exact ⟨h1, hdecimal.1 h2, h3, h4, h5⟩
  · intro hp
    have h1 := hp.hexPrefixed
    have h2 := hdecimal.2 hp.signed
    have h3 := hp.next
    have h4 := hp.short
    have h5 := hp.value
    rw [← h.hexPrefixed] at h1
    rw [← h.digits] at h1 h2 h5
    rw [← h.sign] at h1 h2
    rw [← h.length] at h3 h4
    rw [← h.representable, ← h.value, ← h.length, ← h.magnitude] at h5
    exact ⟨h1, h2, h3, h4, h5⟩

end

theorem item_nil (base : Nat) : itemLength base [] = 0 ∧ numberDigits base [] = [] := by
  have hhex : hexPrefixed base [] = false := by simp [hexPrefixed, hexStart]
  have hd : numberDigits base [] = [] := by
    rw [numberDigits, drop_nil, drop_nil]
    rfl
  refine ⟨?_, hd⟩
  rw [itemLength, hd, drop_nil, prefixLength, hhex]
  rfl

theorem item_zero (base : Nat) (t : List UInt8) :
    itemLength base (0 :: t) = 0 ∧ numberDigits base (0 :: t) = [] := by
  have hhex : hexPrefixed base (0 :: t) = false := by simp [hexPrefixed, hexStart]
  have hsign : signLength (0 :: t) = 0 := rfl
  have hd : numberDigits base (0 :: t) = [] := by
    rw [numberDigits, hsign, drop_zero, prefixLength, hhex]
    rfl
  refine ⟨?_, hd⟩
  rw [itemLength, hd, hsign, drop_zero, prefixLength, hhex]
  rfl

theorem getNumber_eq (source : Source) (a : Arch) (fieldWidth base : Nat) (input : List UInt8) :
    getNumber source a fieldWidth base input = match input.dropWhile isspace with
      | [] => some (⟨0, []⟩, if input = [] then [] else source.unget none [])
      | c :: rest =>
        if c = 0 then
          some (⟨0, []⟩, if input = c :: rest then rest else source.unget none rest)
        else firstRound (widthLimit a fieldWidth) base c rest := by
  rcases input with _ | ⟨c, input⟩
  · rfl
  rw [getNumber, callGet, dropWhile_cons]
  by_cases h0 : c = 0
  · subst h0
    simp [isspace]
  rw [if_neg h0]
  dsimp only
  by_cases hs : isspace c = true
  · have hle : (input.dropWhile isspace).length ≤ input.length := (dropWhile_suffix _).length_le
    rw [if_pos hs, if_pos hs, skipSpaces_eq]
    rcases hd : input.dropWhile (fun c => isspace c) with _ | ⟨d, rest⟩
    · rw [callGet]
      simp
    rw [callGet]
    by_cases hd0 : d = 0
    · have hne : ¬ c :: input = d :: rest := fun h => by
        have hlen : rest.length + 1 ≤ input.length := by
          rwa [← length_cons, ← hd]
        rw [(cons.inj h).2] at hlen
        omega
      rw [if_pos hd0]
      dsimp only
      rw [if_pos hd0, if_neg hne]
    · rw [if_neg hd0]
      dsimp only
      rw [if_neg hd0]
  · rw [if_neg hs, if_neg hs]
    dsimp only
    rw [if_neg h0]

section

variable (source : Source) (a : Arch) (conv : Conversion) (length : LengthModifier)
  (fieldWidth : Nat) (input : List UInt8)

theorem scanInteger_eq : scanInteger source a conv length fieldWidth input =
    converted conv (length.bits a) (getNumber source a fieldWidth conv.base input) := rfl

/-- There is no character but white space. -/
theorem scanInteger_blank (hafter : input.dropWhile isspace = []) :
    ScansNumber source a conv length fieldWidth input ↔
      PlainNumber source conv (length.bits a) fieldWidth input := by
  have hscan := scanInteger_eq source a conv length fieldWidth input
  rw [getNumber_eq, hafter] at hscan
  have ht : field fieldWidth input = [] := by
    rw [field, hafter, take_nil]
    exact ite_self _
  obtain ⟨hlen, hds⟩ := item_nil conv.base
  have hleft : ScansNumber source a conv length fieldWidth input ↔
      (if input = [] then [] else source.unget none []) = [] := by
    rw [ScansNumber, hscan, ht, hafter, hlen, hds]
    constructor
    · rintro ⟨stored, left, hres, hrest, -⟩
      cases hres
      exact hrest
    · intro h
      exact ⟨none, _, rfl, h, by simp, fun v hv => by cases hv⟩
  rw [hleft]
  constructor
  · intro h
    refine ⟨?_, ?_, ?_, ?_, ?_, ?_⟩
    · rw [ht]
      intro hhex
      exact absurd (hexStart_length (hexPrefixed_start hhex)) (by simp)
    · rw [ht]
      intro hsign
      cases hsign
    · rw [hafter]
      simp
    · rintro rfl -
      by_contra hne
      rw [if_neg hne] at h
      cases h
    · rw [ht, hlen]
      decide
    · rw [ht, hds]
      exact fun h => absurd rfl h
  · intro hp
    by_cases hne : input = []
    · rw [if_pos hne]
    · rw [if_neg hne]
      cases source with
      | sscanf => rfl
      | fscanf => exact absurd (hp.space rfl hafter) hne

/-- A zero is taken for `EOF`, and lost. -/
theorem scanInteger_zero {rest : List UInt8} (hafter : input.dropWhile isspace = 0 :: rest) :
    ScansNumber source a conv length fieldWidth input ↔
      PlainNumber source conv (length.bits a) fieldWidth input := by
  have hscan := scanInteger_eq source a conv length fieldWidth input
  rw [getNumber_eq, hafter] at hscan
  have hitem : itemLength conv.base (field fieldWidth input) = 0 := by
    rw [field, hafter]
    split
    · exact (item_zero conv.base rest).1
    · obtain ⟨n, hn⟩ : ∃ n, fieldWidth = n + 1 := ⟨fieldWidth - 1, by omega⟩
      rw [hn]
      exact (item_zero conv.base _).1
  refine iff_of_false ?_ fun hp => hp.next (by omega) (by rw [hitem, hafter]; rfl)
  rintro ⟨stored, left, hres, hrest, -⟩
  rw [hitem, hafter, drop_zero] at hrest
  rw [hscan] at hres
  dsimp only at hres
  rw [if_pos rfl] at hres
  have hleft : (if input = 0 :: rest then rest else source.unget none rest) = left := by
    cases hres
    rfl
  rw [hrest] at hleft
  split at hleft
  · have := congrArg List.length hleft
    simp at this
  cases source with
  | sscanf =>
    have := congrArg List.length hleft
    simp [Source.unget] at this
  | fscanf => exact absurd (cons.inj hleft).1 (by decide)

end

/-- The counter overflows before the end of a long item. -/
theorem firstRound_overflow {conv : Conversion} {bits limit : Nat} {c : UInt8} {rest : List UInt8}
    (hlimit : 2 ^ 32 - 1 ≤ limit) (hc : c ≠ 0) (hlt : ¬ itemLength conv.base (c :: rest) < limit) :
    ¬ FieldResult conv bits (c :: rest) (c :: rest)
      (converted conv bits (firstRound limit conv.base c rest)) := by
  have hround := firstRound_item conv.base (show 0 < limit by omega) hc rest
  rintro ⟨stored, left, hres, hrest, -⟩
  rw [hround] at hres
  have hcode : codeLength limit conv.base (c :: rest) < 2 ^ 31 := by
    by_contra hno
    rw [if_neg hno] at hres
    cases hres
  rw [if_pos hcode, converted] at hres
  dsimp only at hres
  have hleft : leave limit (codeLength limit conv.base (c :: rest)) (c :: rest) = left := by
    split at hres <;> cases hres <;> rfl
  have hle := itemLength_le conv.base (c :: rest)
  have hlen := congrArg List.length (hleft.trans hrest)
  rw [leave] at hlen
  split at hlen <;> rw [length_drop, length_drop] at hlen <;> omega

/-- **The conversions `d`, `i`, `o`, `u` and `x`** follow the longest-prefix rule
just if the number is plain. -/
theorem scanInteger_iff (source : Source) (a : Arch) (conv : Conversion) (length : LengthModifier)
    (fieldWidth : Nat) (input : List UInt8) :
    ScansNumber source a conv length fieldWidth input ↔
      PlainNumber source conv (length.bits a) fieldWidth input := by
  have hscan := scanInteger_eq source a conv length fieldWidth input
  rw [getNumber_eq] at hscan
  have hbits := length.bits_cases a
  rcases hafter : input.dropWhile isspace with _ | ⟨c, rest⟩
  · exact scanInteger_blank source a conv length fieldWidth input hafter
  have hspace : isspace c = false := by
    have hne : input.dropWhile isspace ≠ [] := by simp [hafter]
    have hnot := head_dropWhile_not isspace hne
    simpa only [hafter, head_cons] using hnot
  rw [hafter] at hscan
  by_cases hc : c = 0
  · exact scanInteger_zero source a conv length fieldWidth input (hc ▸ hafter)
  · dsimp only at hscan
    rw [if_neg hc] at hscan
    have hplain : ∀ {limit : Nat} {t : List UInt8}, field fieldWidth input = t →
        (itemLength conv.base t < 2 ^ 31 → (itemLength conv.base t < limit ↔
            fieldWidth = 0 ∨ itemLength conv.base t < fieldWidth)) →
        (PlainField conv (length.bits a) limit (c :: rest) t ↔
          PlainNumber source conv (length.bits a) fieldWidth input) := by
      rintro limit t rfl hlimit
      constructor
      · intro hp
        exact ⟨hp.hexPrefixed, hp.signed, fun h => hafter ▸ hp.next ((hlimit hp.short).2 h),
          fun _ h => absurd (hafter.symm.trans h) (cons_ne_nil _ _), hp.short, hp.value⟩
      · intro hp
        exact ⟨hp.hexPrefixed, hp.signed, fun h => hafter ▸ hp.next ((hlimit hp.short).1 h),
          hp.short, hp.value⟩
    have hresult : ScansNumber source a conv length fieldWidth input ↔
        FieldResult conv (length.bits a) (c :: rest) (field fieldWidth input)
          (converted conv (length.bits a)
            (firstRound (widthLimit a fieldWidth) conv.base c rest)) := by
      rw [← hscan, ← hafter]
      rfl
    rw [hresult]
    by_cases hw : fieldWidth = 0
    · have hlimit : widthLimit a fieldWidth = sizeMax a := if_pos hw
      have hfield : field fieldWidth input = c :: rest := by rw [field, if_pos hw, hafter]
      have hmax : 2 ^ 32 - 1 ≤ sizeMax a := by cases a <;> decide
      rw [hlimit, hfield]
      by_cases hlt : itemLength conv.base (c :: rest) < sizeMax a
      · have hsame := sameItem_take (m := sizeMax a) (by omega) hlt
        rw [← hsame.fieldResult, firstRound_iff hbits (by omega) hc hspace, hsame.plainField]
        exact hplain hfield fun h => iff_of_true hlt (.inl hw)
      refine iff_of_false (firstRound_overflow hmax hc hlt) fun hp => ?_
      have := hp.short
      rw [hfield] at this
      omega
    · have hlimit : widthLimit a fieldWidth = fieldWidth := if_neg hw
      have hfield : field fieldWidth input = (c :: rest).take fieldWidth := by
        rw [field, if_neg hw, hafter]
      rw [hlimit, hfield, firstRound_iff hbits (by omega) hc hspace]
      exact hplain hfield fun _ => (or_iff_right hw).symm

/-- `%x` of `0x1f` stores 0 and leaves the `x`; `%i` of `-0x1f`, too; and `%d` at
the end of a file gives it the character 255. -/
theorem scanInteger_differs :
    (scanInteger .sscanf .a64 .x .none 0 [48, 120, 49, 102] = some (some 0, [120, 49, 102]) ∧
        ¬ ScansNumber .sscanf .a64 .x .none 0 [48, 120, 49, 102]) ∧
      scanInteger .sscanf .a64 .i .none 0 [45, 48, 120, 49, 102] = some (some 0, [120, 49, 102]) ∧
      scanInteger .fscanf .a64 .d .none 0 [32] = some (none, [255]) := by
  have hx : scanInteger .sscanf .a64 .x .none 0 [48, 120, 49, 102] =
      some (some 0, [120, 49, 102]) := by decide
  refine ⟨⟨hx, ?_⟩, by decide, by decide⟩
  rintro ⟨stored, rest, hres, hrest, -⟩
  rw [hx] at hres
  cases hres
  exact absurd hrest (by decide)

end Dancy.Libc
