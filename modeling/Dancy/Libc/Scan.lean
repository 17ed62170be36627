import Dancy.Libc.ReadRuns
import Dancy.Libc.Strtol
import Mathlib.Data.List.TakeWhile

/-!
# Scanning (`_scan.c`, `sscanf.c`, `fscanf.c`)

The scanner reads characters with `get`, and gives one back with `unget`. A
stream is the list of the characters that are left; after the last one there
is `EOF` for good. Both pairs of callbacks are shown to work on such a list.
-/

namespace Dancy.Libc

open List

/-! ## The callbacks -/

inductive Source where
  | sscanf
  | fscanf

/-- `unget` of a character, and of `EOF`: `ungetc` puts its low byte back. -/
def Source.unget (source : Source) (c : Option UInt8) (input : List UInt8) : List UInt8 :=
  match c, source with
  | some c, _ => c :: input
  | none, .sscanf => input
  | none, .fscanf => 255 :: input

/-- `call_get`: a zero counts as `EOF`. -/
def callGet : List UInt8 → Option UInt8 × List UInt8
  | [] => (none, [])
  | c :: input => if c = 0 then (none, input) else (some c, input)

/-- The loop that skips white space, up to a character or `EOF`. -/
def skipSpaces : List UInt8 → Option UInt8 × List UInt8
  | [] => (none, [])
  | c :: input =>
    if c = 0 then (none, input) else if isspace c then skipSpaces input else (some c, input)

/-- The loop of `%s`, with the character `c` in hand. It does not count. -/
def storeRun (fieldWidth width : Nat) (c : UInt8) : List UInt8 → List UInt8 × List UInt8
  | [] => if fieldWidth ≠ 0 ∧ width ≥ fieldWidth then ([], []) else ([c], [])
  | d :: input =>
    if fieldWidth ≠ 0 ∧ width ≥ fieldWidth then ([], d :: input)
    else if d = 0 ∨ isspace d then ([c], input)
    else (c :: (storeRun fieldWidth width d input).1, (storeRun fieldWidth width d input).2)

/-- `%s`: the characters that are stored, and those that are left. -/
def scanString (fieldWidth : Nat) (input : List UInt8) : List UInt8 × List UInt8 :=
  match skipSpaces input with
  | (none, input) => ([0], input)
  | (some c, input) => ((storeRun fieldWidth 0 c input).1 ++ [0], (storeRun fieldWidth 0 c input).2)

/-- The run of characters that are no white space, after white space. -/
def wordOf (input : List UInt8) : List UInt8 := (input.dropWhile isspace).takeWhile (!isspace ·)

/-- `%Ns` of the C standard, without a width for zero: at most `N` characters
of the run, and everything after them is left. -/
def stringReference (fieldWidth : Nat) (input : List UInt8) : List UInt8 × List UInt8 :=
  let word := if fieldWidth = 0 then wordOf input else (wordOf input).take fieldWidth
  (word ++ [0], (input.dropWhile isspace).drop word.length)

/-- After white space, the stream ends with one run that has no zero and is not
longer than the width. -/
def LastWord (fieldWidth : Nat) (input : List UInt8) : Prop :=
  (∀ c ∈ input.dropWhile isspace, c ≠ 0 ∧ isspace c = false) ∧
    (fieldWidth = 0 ∨ (input.dropWhile isspace).length ≤ fieldWidth)

variable {input : List UInt8}

/-- The first character after white space, or `EOF` at a zero and at the end. -/
theorem skipSpaces_eq (input : List UInt8) :
    skipSpaces input = callGet (input.dropWhile fun c => isspace c) := by
  induction input with
  | nil => rfl
  | cons c input ih =>
    rw [skipSpaces, dropWhile_cons]
    by_cases h0 : c = 0
    · subst h0
      rfl
    · rw [if_neg h0]
      by_cases hs : isspace c = true
      · rw [if_pos hs, if_pos hs, ih]
      · rw [if_neg hs, if_neg hs, callGet, if_neg h0]

/-- The loop stores up to a white space or a zero, and takes that one, too. -/
theorem storeRun_eq (fieldWidth : Nat) (input : List UInt8) : ∀ c : UInt8,
    storeRun fieldWidth 0 c input = (c :: input.takeWhile (fun d => d ≠ 0 && !isspace d),
        input.drop ((input.takeWhile fun d => d ≠ 0 && !isspace d).length + 1)) := by
  have hcount : ¬ (fieldWidth ≠ 0 ∧ 0 ≥ fieldWidth) := by omega
  induction input with
  | nil =>
    intro c
    rw [storeRun, if_neg hcount]
    rfl
  | cons d input ih =>
    intro c
    rw [storeRun, if_neg hcount, takeWhile_cons]
    by_cases hd : d = 0 ∨ isspace d = true
    · rw [if_pos hd, if_neg (by simpa [or_iff_not_imp_left] using hd)]
      rfl
    · rw [not_or] at hd
      rw [if_neg (by rw [not_or]; exact hd), if_pos (by simp [hd.1, hd.2]), ih d]
      rfl

/-- **`%s` and `%Ns`** just if the stream ends with the word and the word is
not longer than the width: the width is not counted, and the character after
the word is lost. -/
theorem scanString_iff (fieldWidth : Nat) (input : List UInt8) :
    scanString fieldWidth input = stringReference fieldWidth input ↔ LastWord fieldWidth input := by
  have hscan : scanString fieldWidth input = match callGet (input.dropWhile isspace) with
      | (none, input) => ([0], input)
      | (some c, input) =>
        ((storeRun fieldWidth 0 c input).1 ++ [0], (storeRun fieldWidth 0 c input).2) := by
    rw [scanString, skipSpaces_eq]
  rw [hscan, stringReference, LastWord, wordOf]
  rcases hafter : input.dropWhile isspace with _ | ⟨c, rest⟩
  · exact iff_of_true (by simp [callGet]) ⟨by simp, by simp⟩
  have hhead : isspace c = false := by
    have hne : input.dropWhile isspace ≠ [] := by simp [hafter]
    have hnot := head_dropWhile_not isspace hne
    simpa only [hafter, head_cons] using hnot
  have hrun : (c :: rest).takeWhile (!isspace ·) = c :: rest.takeWhile (!isspace ·) := by
    rw [takeWhile_cons, hhead]
    rfl
  rw [hrun, callGet]
  by_cases hc : c = 0
  · -- a zero is taken for the end of the stream, and the word is missed
    rw [if_pos hc]
    refine iff_of_false (fun h => ?_) fun h => (h.1 c (mem_cons_self ..)).1 hc
    have hlen := congrArg length (Prod.mk.inj h).1
    by_cases hw : fieldWidth = 0
    · simp [hw] at hlen
    · obtain ⟨n, rfl⟩ : ∃ n, fieldWidth = n + 1 := ⟨fieldWidth - 1, by omega⟩
      simp at hlen
  rw [if_neg hc]
  dsimp only
  rw [storeRun_eq]
  obtain ⟨run, hk⟩ : ∃ run, run = rest.takeWhile fun d => d ≠ 0 && !isspace d := ⟨_, rfl⟩
  rw [← hk]
  constructor
  · intro h
    obtain ⟨hword, hrest⟩ := Prod.mk.inj h
    have hlen := congrArg length (append_cancel_right hword)
    have hleft := congrArg length hrest
    rw [← hlen, length_drop, length_drop, length_cons, length_cons] at hleft
    have hle : run.length ≤ rest.length := hk ▸ ( takeWhile_prefix _).length_le
    have hall : rest.takeWhile (fun d => d ≠ 0 && !isspace d) = rest :=
      ( takeWhile_prefix _).eq_of_length (by rw [← hk]; omega)
    have hmem := takeWhile_eq_self_iff.1 hall
    refine ⟨fun d hd => ?_, ?_⟩
    · rcases mem_cons.1 hd with rfl | hd
      · exact ⟨hc, hhead⟩
      · simpa using hmem d hd
    by_cases hw : fieldWidth = 0
    · exact .inl hw
    · rw [if_neg hw, length_take, length_cons, length_cons] at hlen
      rw [length_cons]
      omega
  · rintro ⟨hall, hfits⟩
    have hrest : ∀ d ∈ rest, d ≠ 0 ∧ isspace d = false := fun d hd => hall d (.tail _ hd)
    have hboth : run = rest := by
      rw [hk, takeWhile_eq_self_iff]
      exact fun d hd => by simp [hrest d hd]
    have hspace : rest.takeWhile (!isspace ·) = rest :=
      takeWhile_eq_self_iff.2 fun d hd => by simp [(hrest d hd).2]
    have hword : (if fieldWidth = 0 then c :: rest else (c :: rest).take fieldWidth) = c :: rest := by
      split
      · rfl
      · exact take_of_length_le (by omega)
    rw [hboth, hspace, hword]
    simp

/-- `%3s` of `abcd` stores five bytes, and `%s` takes the space after `a`. -/
theorem scanString_overflows :
    ((scanString 3 [97, 98, 99, 100]).1.length = 5 ∧
        scanString 3 [97, 98, 99, 100] ≠ stringReference 3 [97, 98, 99, 100]) ∧
      scanString 0 [97, 32, 98] = ([97, 0], [98]) ∧
        stringReference 0 [97, 32, 98] = ([97, 0], [32, 98]) := by
  decide

end Dancy.Libc
