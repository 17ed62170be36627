import Dancy.Common.Utf8
import Dancy.Lib.Bytes
import Mathlib.Data.List.Basic

/-!
# The line editor of the shell (`dsh/prompt.c`)

The state is `struct dsh_prompt`, without the terminal modes. A character that
is written outside of the buffer leaves a mark in `overflow`. The write to the
terminal succeeds, and `mem` tells if a string can be allocated.
-/

namespace Dancy.Shell.Prompt

open Dancy.Lib List
open Dancy.Common (Scalar utf8Encode)

def DSH_PROMPT_BUFFER_SIZE : Nat := 4096

/-- The number of entries of `history`. -/
def histories : Nat := 32

/-- `struct dsh_prompt`; `cursor` and `size` are `buffer_state`, and
`escape_state` is the length of `escape`. -/
structure State where
  wsCol : Int
  prompt : List UInt8
  promptOffset : Int
  buffer : Bytes
  (cursor size : Nat)
  escape : List UInt8
  skipRender : Nat
  history : Nat → Option (List UInt8)
  historyState : Nat
  overflow : Bool

def State.store (st : State) (i : Nat) (c : UInt8) : State :=
  { st with
    buffer := fun k => if k = i then c else st.buffer k
    overflow := st.overflow || DSH_PROMPT_BUFFER_SIZE ≤ i }

/-- The string at `i` of the buffer. -/
def State.text (st : State) (i : Nat) : List UInt8 :=
  ((range (DSH_PROMPT_BUFFER_SIZE - i)).map fun k => st.buffer (i + k)).takeWhile (· ≠ 0)

/-- `(c & 0xC0) == 0x80` -/
def continues (c : UInt8) : Bool := c.toNat &&& 0xC0 = 0x80

/-! ## Rendering -/

/-- The loop of `count_columns`. -/
def countLoop : List UInt8 → (utf8 r : Nat) → Nat
  | [], _, r => r
  | c :: cs, utf8, r =>
    if c.toNat &&& 0x80 = 0 then countLoop cs 0 (r + 1)
    else if utf8 > 0 then countLoop cs (utf8 - 1) (if utf8 - 1 = 0 then r + 1 else r)
    else if c.toNat &&& 0xE0 = 0xC0 then countLoop cs 1 r
    else if c.toNat &&& 0xF0 = 0xE0 then countLoop cs 2 r
    else if c.toNat &&& 0xF8 = 0xF0 then countLoop cs 8 r
    else countLoop cs utf8 r

def countColumns (input : List UInt8) : Nat := countLoop input 0 0

/-- The loop of `line_add`; without a `count` all is added. -/
def lineLoop (count : Option Int) : List UInt8 → (i : Int) → (line : List UInt8) →
    Option (List UInt8)
  | [], _, line => some line
  | c :: cs, i, line =>
    if line.length ≥ 1024 then none
    else
      let i := if continues c then i else i + 1
      if (count.map fun count => decide (i > count)) = some true then some line
      else lineLoop count cs i (line ++ [c])

def lineAdd (line input : List UInt8) (count : Option Int) : Option (List UInt8) :=
  lineLoop count input 0 line

structure Trim where
  (columnsLeft columnsRight : Int)
  (trimLeft trimRight : Nat)

/-- The loop over the columns. Each round takes one of them. -/
def trimLoop (columnsMax : Int) : (rounds : Nat) → Trim → Trim
  | 0, t => t
  | rounds + 1, t =>
    if t.columnsLeft + t.columnsRight > columnsMax then
      if t.columnsLeft > columnsMax / 2 then
        trimLoop columnsMax rounds
          { t with columnsLeft := t.columnsLeft - 1, trimLeft := t.trimLeft + 1 }
      else if t.columnsRight > 0 then
        trimLoop columnsMax rounds
          { t with columnsRight := t.columnsRight - 1, trimRight := t.trimRight + 1 }
      else trimLoop columnsMax rounds t
    else t

/-- The loop that steps over trimmed characters. -/
def skipLoop : List UInt8 → (count : Nat) → List UInt8
  | input, 0 => input
  | [], _ + 1 => []
  | _ :: input, count + 1 =>
    skipLoop input (if continues (input.headD 0) then count + 1 else count)

def bytesOf (s : String) : List UInt8 := s.toList.map fun c => UInt8.ofNat c.toNat

/-- Escape sequences of the terminal: a new line, the marks of a line that is
scrolled, and the column of the cursor. -/
def newLine : List UInt8 := 27 :: bytesOf "[m" ++ 13 :: 27 :: bytesOf "[K"
def markLeft : List UInt8 := 8 :: 27 :: bytesOf "[36m<" ++ 27 :: bytesOf "[m"
def markRight : List UInt8 := 27 :: bytesOf "[36m>" ++ 27 :: bytesOf "[m"
def cursorTo (column : Int) : List UInt8 := 27 :: bytesOf ("[" ++ toString column ++ "G")

/-- What `render` does: the column of the cursor and the line that is written. -/
inductive Rendered where
  | skipped
  | failed
  | emitted (column : Int) (line : List UInt8)

def State.columnsMax (st : State) : Int := st.wsCol - (st.promptOffset + 1)

/-- The columns of the line as far as there is room for them. -/
def State.trim (st : State) : Trim :=
  let columnsRight : Int := countColumns (st.text st.cursor)
  let columnsLeft : Int := countColumns (st.text 0) - columnsRight
  trimLoop st.columnsMax (columnsLeft + columnsRight - st.columnsMax).toNat
    ⟨columnsLeft, columnsRight, 0, 0⟩

/-- The line that is written; `none` is an error. -/
def State.line (st : State) (t : Trim) (column : Int) : Option (List UInt8) :=
  (lineAdd [] newLine none).bind fun line =>
    (lineAdd line st.prompt none).bind fun line =>
      (if t.trimLeft ≠ 0 then lineAdd line markLeft none else some line).bind fun line =>
        (lineAdd line (skipLoop (st.text 0) t.trimLeft) (some t.columnsLeft)).bind fun line =>
          (lineAdd line (st.text st.cursor) (some t.columnsRight)).bind fun line =>
            (if t.trimRight ≠ 0 then lineAdd line markRight none else some line).bind fun line =>
              lineAdd line (cursorTo column) none

def render (st : State) : State × Rendered :=
  if st.skipRender > 0 then ({ st with skipRender := st.skipRender - 1 }, .skipped)
  else if st.columnsMax < 8 then (st, .failed)
  else
    let t := st.trim
    let column := st.promptOffset + 1 + t.columnsLeft
    match st.line t column with
    | none => (st, .failed)
    | some line => (st, .emitted column line)

/-! ## Editing -/

/-- The loop that moves `n` bytes at `offset` up by one. -/
def shiftUp (offset : Nat) : (n : Nat) → State → State
  | 0, st => st
  | n + 1, st => shiftUp offset n (st.store (offset + n + 1) (st.buffer (offset + n)))

/-- `add_char` for a byte that is written. -/
def addByte (st : State) (c : UInt8) : State :=
  if st.size + 8 ≥ DSH_PROMPT_BUFFER_SIZE then st
  else
    let st := shiftUp st.cursor (st.size - st.cursor) st
    let st := { st.store st.cursor c with cursor := st.cursor + 1 }
    { st.store (st.size + 1) 0 with size := st.size + 1 }

def addChar (st : State) (c : UInt8) : State :=
  if st.size + 8 ≥ DSH_PROMPT_BUFFER_SIZE then st
  else if c ≤ 0x1F then if c = 0x1B then addByte (addByte st 0xC2) 0xB7 else st
  else addByte st c

/-- The loop that moves the bytes from `i` on down by one, `n` of them. -/
def shiftDown : (n i : Nat) → State → State
  | 0, _, st => st
  | n + 1, i, st => shiftDown n (i + 1) (st.store i (st.buffer (i + 1)))

/-- The loop of `del_char`. -/
def delLoop : (rounds : Nat) → State → State
  | 0, st => st
  | rounds + 1, st =>
    if st.size - st.cursor > 0 then
      let st := shiftDown (st.size - st.cursor) st.cursor st
      let st := { st.store (st.size - 1) 0 with size := st.size - 1 }
      if continues (st.buffer st.cursor) then delLoop rounds st else st
    else st

def delChar (st : State) : State :=
  let st := delLoop (st.size - st.cursor) st
  if st.cursor > st.size then { st with cursor := st.size } else st

/-- From `j` to the left, over bytes that continue a character. -/
def backLoop (b : Bytes) : (j : Nat) → Nat
  | 0 => 0
  | j + 1 => if continues (b (j + 1)) then backLoop b j else j + 1

/-- From `j` to the right, `left` bytes at most. -/
def forwardLoop (b : Bytes) : (left j : Nat) → Nat
  | 0, j => j
  | left + 1, j => if continues (b j) then forwardLoop b left (j + 1) else j

/-- `move_cursor` to the left, and the columns that were moved. -/
def moveLeft : (columns : Nat) → State → State × Nat
  | 0, st => (st, 0)
  | columns + 1, st =>
    if st.cursor = 0 then (st, 0)
    else
      let r := moveLeft columns { st with cursor := backLoop st.buffer (st.cursor - 1) }
      (r.1, r.2 + 1)

/-- `move_cursor` to the right. -/
def moveRight : (columns : Nat) → State → State
  | 0, st => st
  | columns + 1, st =>
    if st.cursor + 1 > st.size then st
    else
      moveRight columns
        { st with
          cursor := forwardLoop st.buffer (st.size - (st.cursor + 1)) (st.cursor + 1) }

/-- `strcpy` from the `i`-th character of the buffer on. -/
def strcpy : List UInt8 → (i : Nat) → State → State
  | [], i, st => st.store i 0
  | c :: s, i, st => strcpy s (i + 1) (st.store i c)

def State.setHistory (st : State) (i : Nat) (s : Option (List UInt8)) : State :=
  { st with history := fun k => if k = i then s else st.history k }

/-- The line gives way to the `j`-th entry of the history. -/
def changeLine (mem : Bool) (j : Nat) (st : State) : State :=
  match st.history j with
  | none => st
  | some s =>
    if mem then
      let st := strcpy s 0 (st.setHistory st.historyState (some (st.text 0)))
      { st with
        cursor := (st.text 0).length, size := (st.text 0).length, historyState := j }
    else st

def historyUp (mem : Bool) (st : State) : State :=
  if st.historyState + 1 < histories then changeLine mem (st.historyState + 1) st else st

def historyDown (mem : Bool) (st : State) : State :=
  if st.historyState > 0 then changeLine mem (st.historyState - 1) st else st

def escapeSequence (mem : Bool) (p : List UInt8) (st : State) : State :=
  if p = 27 :: bytesOf "[3~" then delChar st
  else if p = 27 :: bytesOf "[A" then historyUp mem st
  else if p = 27 :: bytesOf "[B" then historyDown mem st
  else if p = 27 :: bytesOf "[C" then moveRight 1 st
  else if p = 27 :: bytesOf "[D" then (moveLeft 1 st).1
  else if p = 27 :: bytesOf "[F" then moveRight (2 ^ 31 - 1) st
  else if p = 27 :: bytesOf "[H" then (moveLeft (2 ^ 31) st).1
  else st

def escapeByte (mem : Bool) (c : UInt8) (st : State) : State :=
  let p := if st.escape.length + 1 < 8 then st.escape ++ [c] else st.escape
  if 0x20 ≤ c ∧ c ≤ 0x3F then { st with escape := p }
  else if p = 27 :: bytesOf "[" ∨ p = 27 :: bytesOf "[[" then { st with escape := p }
  else
    let st := escapeSequence mem p st
    let st := if c.toNat &&& 0x80 ≠ 0 then p.foldl addChar st else st
    { st with escape := [] }

/-- How often `render` is skipped behind a byte. -/
def skipBehind (c : UInt8) (skip : Nat) : Nat :=
  if c.toNat &&& 0x80 = 0 then 0
  else if c.toNat &&& 0xE0 = 0xC0 then 1
  else if c.toNat &&& 0xF0 = 0xE0 then 2
  else if c.toNat &&& 0xF8 = 0xF0 then 3
  else skip

/-- The loop of `prompt_read` with a byte; `none` is a return. -/
def promptByte (tabCompletion : State → State) (mem : Bool) (c : UInt8) (st : State) :
    Option State :=
  if c = 4 ∧ st.buffer 0 = 0 then none
  else if c = 10 ∨ c = 0 then none
  else
    let st := { st with skipRender := skipBehind c st.skipRender }
    if c = 13 then some { st with escape := [] }
    else if st.escape ≠ [] then some (escapeByte mem c st)
    else if c = 9 then some (tabCompletion st)
    else if c = 27 then some { st with escape := [c] }
    else if c = 0x7F then
      let r := moveLeft 1 st
      some (if r.2 = 1 then delChar r.1 else r.1)
    else some (addChar st c)

/-- `render`, and the loop with the byte that is read then. -/
def turn (tabCompletion : State → State) (mem : Bool) (c : UInt8) (st : State) : Option State :=
  match render st with
  | (_, .failed) => none
  | (st, _) => promptByte tabCompletion mem c st

/-- A prompt and the window. `fresh` is what `malloc` gives. -/
structure Config where
  wsCol : Int
  prompt : List UInt8
  promptOffset : Nat
  fresh : Bytes

/-- The first part of `prompt_read`; `none` is an error. -/
def start (config : Config) (history : Nat → Option (List UInt8)) : Option State :=
  if config.promptOffset ≥ config.wsCol then none
  else
    some
      { wsCol := config.wsCol, prompt := config.prompt, promptOffset := config.promptOffset
        buffer := fun k => if k = 0 then 0 else config.fresh k
        cursor := 0, size := 0, escape := [], skipRender := 0
        history := history, historyState := 0, overflow := false }

/-- The last part of `dsh_prompt_read`: the history with the line. -/
def finish (mem : Bool) (st : State) : Nat → Option (List UInt8) :=
  let history := (st.setHistory 0 none).history
  let line := st.text 0
  if line.all (· = 32) then history
  else if history 1 = some line then history
  else if mem = false then history
  else fun i =>
    if i = 1 then some line else if 1 < i ∧ i < histories then history (i - 1) else history i

variable {st st' st'' : State} {l r s conts : List UInt8} {c lead : UInt8} {i n : Nat}

theorem continues_iff (c : UInt8) : continues c = true ↔ 0x80 ≤ c.toNat ∧ c.toNat < 0xC0 := by
  have hall : ∀ n < 256, continues (UInt8.ofNat n) = true ↔ 0x80 ≤ n ∧ n < 0xC0 := by
    decide +kernel
  have h := hall c.toNat c.toNat_lt
  rwa [UInt8.ofNat_toNat] at h

theorem not_continues (h : ¬ (0x80 ≤ c.toNat ∧ c.toNat < 0xC0)) : continues c = false := by
  rwa [← Bool.not_eq_true, continues_iff]

def Leads (s : List UInt8) : Prop := continues (s.headD 0) = false

/-- The bytes of a character, or the first of them. -/
structure Piece (p : List UInt8) : Prop where
  leads : continues (p.headD 0) = false
  conts : ∀ c ∈ p.tail, continues c = true
  ne_nil : p ≠ []
  nonzero : ∀ c ∈ p, c ≠ 0

theorem leads_flatten {ps : List (List UInt8)} (h : ∀ p ∈ ps, Piece p) : Leads ps.flatten := by
  cases ps with
  | nil => rfl
  | cons p ps =>
    have hp := h p mem_cons_self
    obtain ⟨c, cs, rfl⟩ := exists_cons_of_ne_nil hp.ne_nil
    exact hp.leads

theorem nonzero_of_continues (h : continues c = true) : c ≠ 0 := by
  rintro rfl
  cases h

/-! ## The line -/

structure Keeps (st st' : State) : Prop where
  wsCol : st'.wsCol = st.wsCol
  prompt : st'.prompt = st.prompt
  promptOffset : st'.promptOffset = st.promptOffset
  escape : st'.escape = st.escape
  skipRender : st'.skipRender = st.skipRender
  history : st'.history = st.history
  historyState : st'.historyState = st.historyState

theorem Keeps.refl (st : State) : Keeps st st := ⟨rfl, rfl, rfl, rfl, rfl, rfl, rfl⟩

theorem Keeps.trans (h : Keeps st st') (h' : Keeps st' st'') : Keeps st st'' where
  wsCol := h'.wsCol.trans h.wsCol
  prompt := h'.prompt.trans h.prompt
  promptOffset := h'.promptOffset.trans h.promptOffset
  escape := h'.escape.trans h.escape
  skipRender := h'.skipRender.trans h.skipRender
  history := h'.history.trans h.history
  historyState := h'.historyState.trans h.historyState

/-- The line with the cursor between `l` and `r`. -/
structure Line (st : State) (l r : List UInt8) : Prop where
  cursor : st.cursor = l.length
  length : st.size = (l ++ r).length
  bytes : ∀ k ≤ (l ++ r).length, st.buffer k = (l ++ r).getD k 0
  room : (l ++ r).length + 8 ≤ DSH_PROMPT_BUFFER_SIZE
  nonzero : ∀ c ∈ l ++ r, c ≠ 0
  inside : st.overflow = false

theorem takeWhile_range (s : List UInt8) : ∀ {f : Nat → UInt8} {n : Nat},
    (∀ k ≤ s.length, f k = s.getD k 0) → (∀ c ∈ s, c ≠ 0) → s.length < n →
      ((range n).map f).takeWhile (· ≠ 0) = s := by
  induction s with
  | nil =>
    intro f n hf _ hn
    obtain ⟨n, rfl⟩ : ∃ m, n = m + 1 := ⟨n - 1, by omega⟩
    have h0 : f 0 = 0 := hf 0 (by simp)
    rw [range_succ_eq_map, map_cons, takeWhile_cons_of_neg (by simp [h0])]
  | cons c s ih =>
    intro f n hf hs hn
    obtain ⟨n, rfl⟩ : ∃ m, n = m + 1 := ⟨n - 1, by omega⟩
    have h0 : f 0 = c := hf 0 (by simp)
    have hc : f 0 ≠ 0 := by rw [h0]; exact hs c mem_cons_self
    rw [range_succ_eq_map, map_cons, takeWhile_cons_of_pos (by simpa using hc),
      map_map, h0, ih (fun k hk => by
        simp [hf (k + 1) (by simpa using hk)])
        (fun x hx => hs x (.tail c hx)) (by simpa using hn)]

section

variable (h : Line st l r)
include h

theorem Line.text (hi : i ≤ (l ++ r).length) : st.text i = (l ++ r).drop i := by
  have hroom := h.room
  unfold DSH_PROMPT_BUFFER_SIZE at hroom
  refine takeWhile_range _ (fun k hk => ?_)
    (fun c hc => h.nonzero c (mem_of_mem_drop hc)) ?_
  · rw [length_drop] at hk
    rw [h.bytes (i + k) (by omega), getD_eq_getElem?_getD, getD_eq_getElem?_getD, getElem?_drop]
  · rw [length_drop]
    unfold DSH_PROMPT_BUFFER_SIZE
    omega

theorem Line.text_right : st.text st.cursor = r := by
  rw [h.text (by rw [h.cursor, length_append]; omega), h.cursor, drop_left]

theorem Line.text_all : st.text 0 = l ++ r := by
  rw [h.text (Nat.zero_le _), drop_zero]

theorem Line.buffer_cursor : st.buffer st.cursor = r.headD 0 := by
  rw [h.bytes _ (by rw [h.cursor, length_append]; omega), h.cursor,
    getD_append_right _ _ _ _ le_rfl, Nat.sub_self]
  cases r with
  | nil | cons => rfl

end

theorem store_eq (h : i < DSH_PROMPT_BUFFER_SIZE) (c : UInt8) :
    st.store i c = { st with buffer := fun k => if k = i then c else st.buffer k } := by
  have hout : decide (DSH_PROMPT_BUFFER_SIZE ≤ i) = false := decide_eq_false (by omega)
  simp [State.store, hout]

theorem shiftUp_eq (offset n : Nat) : ∀ {st : State}, offset + n < DSH_PROMPT_BUFFER_SIZE →
    shiftUp offset n st =
      { st with buffer := st.buffer.copy (offset + 1) st.buffer offset n } := by
  induction n with
  | zero =>
    intro st _
    rw [Bytes.copy_zero]
    rfl
  | succ n ih =>
    intro st h
    rw [shiftUp, store_eq (by omega), ih (by omega)]
    refine congrArg (fun b => { st with buffer := b }) (funext fun k => ?_)
    dsimp only
    -- The byte that was moved first is above the range of the rest.
    by_cases hk : offset + 1 ≤ k ∧ k < offset + 1 + n
    · rw [Bytes.copy_inside hk.1 hk.2, Bytes.copy_inside hk.1 (by omega), if_neg (by omega)]
    rw [Bytes.copy_outside (by omega)]
    by_cases htop : k = offset + n + 1
    · rw [if_pos htop, Bytes.copy_inside (by omega) (by omega)]
      exact congrArg st.buffer (by omega)
    · rw [if_neg htop, Bytes.copy_outside (by omega)]

theorem shiftDown_eq (n : Nat) : ∀ {i : Nat} {st : State}, i + n ≤ DSH_PROMPT_BUFFER_SIZE →
    shiftDown n i st = { st with buffer := st.buffer.copy i st.buffer (i + 1) n } := by
  induction n with
  | zero =>
    intro i st _
    rw [Bytes.copy_zero]
    rfl
  | succ n ih =>
    intro i st h
    rw [shiftDown, store_eq (by omega), ih (by omega)]
    refine congrArg (fun b => { st with buffer := b }) (funext fun k => ?_)
    dsimp only
    by_cases hk : i + 1 ≤ k ∧ k < i + 1 + n
    · rw [Bytes.copy_inside hk.1 hk.2, Bytes.copy_inside (by omega) (by omega), if_neg (by omega)]
      exact congrArg st.buffer (by omega)
    rw [Bytes.copy_outside (by omega)]
    by_cases hlow : k = i
    · rw [if_pos hlow, Bytes.copy_inside (by omega) (by omega)]
      exact congrArg st.buffer (by omega)
    · rw [if_neg hlow, Bytes.copy_outside (by omega)]

theorem addByte_full (h : st.size + 8 ≥ DSH_PROMPT_BUFFER_SIZE) (c : UInt8) :
    addByte st c = st := if_pos h

theorem addByte_eq (h : st.cursor ≤ st.size) (hroom : st.size + 8 < DSH_PROMPT_BUFFER_SIZE)
    (c : UInt8) :
    addByte st c = { st with
        buffer := fun k =>
          if k = st.size + 1 then 0
          else if k = st.cursor then c
          else st.buffer.copy (st.cursor + 1) st.buffer st.cursor (st.size - st.cursor) k
        cursor := st.cursor + 1
        size := st.size + 1 } := by
  rw [addByte, if_neg (by omega)]
  dsimp only
  rw [shiftUp_eq _ _ (by omega), store_eq (show st.cursor < DSH_PROMPT_BUFFER_SIZE by omega)]
  dsimp only
  rw [store_eq (by omega)]

theorem addByte_line (h : Line st l r) (hc : c ≠ 0) (hroom : st.size + 8 < DSH_PROMPT_BUFFER_SIZE) :
    Line (addByte st c) (l ++ [c]) r ∧ Keeps st (addByte st c) := by
  have hcursor := h.cursor
  have hlength := h.length
  rw [length_append] at hlength
  rw [addByte_eq (by omega) hroom]
  refine ⟨⟨?_, ?_, fun k hk => ?_, ?_, ?_, h.inside⟩, ⟨rfl, rfl, rfl, rfl, rfl, rfl, rfl⟩⟩
  · simp [hcursor]
  · simp only [length_append, length_singleton]
    omega
  · dsimp only
    simp only [length_append, length_singleton] at hk
    by_cases hstop : k = st.size + 1
    · rw [if_pos hstop, getD_eq_default _ _ (by simp; omega)]
    rw [if_neg hstop]
    by_cases hat : k = st.cursor
    · rw [if_pos hat, append_assoc, getD_append_right _ _ _ _ (by omega), hat, hcursor,
        Nat.sub_self]
      rfl
    rw [if_neg hat]
    by_cases hup : st.cursor + 1 ≤ k
    · rw [Bytes.copy_inside hup (by omega), h.bytes _ (by rw [length_append]; omega),
        getD_append_right _ _ _ _ (by omega),
        getD_append_right _ _ _ _ (by simp; omega)]
      exact congrArg (fun k => r.getD k 0) (by simp; omega)
    · rw [Bytes.copy_outside (by omega), h.bytes _ (by rw [length_append]; omega),
        append_assoc, getD_append _ _ _ _ (by omega),
        getD_append _ _ _ _ (by omega)]
  · simp only [length_append, length_singleton]
    omega
  intro x hx
  simp only [mem_append, mem_singleton] at hx
  rcases hx with (hx | rfl) | hx
  · exact h.nonzero x (mem_append_left _ hx)
  · exact hc
  · exact h.nonzero x (mem_append_right _ hx)

/-! ## A character is deleted -/

theorem del_eq (h : st.cursor ≤ st.size) (hroom : st.size + 8 ≤ DSH_PROMPT_BUFFER_SIZE) :
    (let st' := shiftDown (st.size - st.cursor) st.cursor st
     ({ st'.store (st'.size - 1) 0 with size := st'.size - 1 } : State)) = { st with
        buffer := fun k =>
          if k = st.size - 1 then 0
          else st.buffer.copy st.cursor st.buffer (st.cursor + 1) (st.size - st.cursor) k
        size := st.size - 1 } := by
  dsimp only
  rw [shiftDown_eq _ (by omega), store_eq (show st.size - 1 < DSH_PROMPT_BUFFER_SIZE by omega)]

theorem del_line (h : Line st l (c :: r)) :
    let st' := shiftDown (st.size - st.cursor) st.cursor st
    let st'' : State := { st'.store (st'.size - 1) 0 with size := st'.size - 1 }
    Line st'' l r ∧ Keeps st st'' := by
  have hcursor := h.cursor
  have hlength := h.length
  have hroom := h.room
  simp only [length_append, length_cons] at hlength hroom
  have heq := @del_eq st (by omega) (by omega)
  dsimp only at heq ⊢
  rw [heq]
  refine ⟨⟨hcursor, ?_, fun k hk => ?_, ?_, ?_, h.inside⟩, ⟨rfl, rfl, rfl, rfl, rfl, rfl, rfl⟩⟩
  · dsimp only
    rw [length_append]
    omega
  · dsimp only
    rw [length_append] at hk
    by_cases hstop : k = st.size - 1
    · rw [if_pos hstop, getD_eq_default _ _ (by rw [length_append]; omega)]
    rw [if_neg hstop]
    by_cases hdown : st.cursor ≤ k
    · rw [Bytes.copy_inside hdown (by omega), h.bytes _ (by simp; omega),
        getD_append_right _ _ _ _ (by omega), getD_append_right _ _ _ _ (by omega),
        show st.cursor + 1 + (k - st.cursor) - l.length = k - l.length + 1 by omega,
        getD_cons_succ]
    · rw [Bytes.copy_outside (by omega), h.bytes _ (by simp; omega),
        getD_append _ _ _ _ (by omega), getD_append _ _ _ _ (by omega)]
  · rw [length_append]
    omega
  intro x hx
  refine h.nonzero x ?_
  rcases mem_append.mp hx with hx | hx
  · exact mem_append_left _ hx
  · exact mem_append_right _ (.tail c hx)

theorem Line.cursor_lt (h : Line st l (c :: r)) : st.size - st.cursor > 0 := by
  have hlength := h.length
  rw [length_append, length_cons] at hlength
  rw [h.cursor]
  omega

theorem delLoop_line (hr : Leads r) (conts : List UInt8) : ∀ {st : State} {c : UInt8} {rounds : Nat},
    (∀ x ∈ conts, continues x = true) → Line st l (c :: (conts ++ r)) →
      conts.length < rounds → Line (delLoop rounds st) l r ∧ Keeps st (delLoop rounds st) := by
  induction conts with
  | nil =>
    intro st c rounds _ h hrounds
    obtain ⟨rounds, rfl⟩ : ∃ m, rounds = m + 1 := ⟨rounds - 1, by omega⟩
    obtain ⟨hline, hkeeps⟩ := del_line h
    rw [delLoop, if_pos h.cursor_lt]
    have hstop := hline.buffer_cursor
    rw [if_neg (by rw [hstop, nil_append, hr]; simp)]
    exact ⟨hline, hkeeps⟩
  | cons x conts ih =>
    intro st c rounds hconts h hrounds
    obtain ⟨rounds, rfl⟩ : ∃ m, rounds = m + 1 := ⟨rounds - 1, by omega⟩
    obtain ⟨hline, hkeeps⟩ := del_line h
    rw [delLoop, if_pos h.cursor_lt]
    have hgo := hline.buffer_cursor
    rw [if_pos (by rw [hgo]; exact hconts x mem_cons_self)]
    obtain ⟨hline', hkeeps'⟩ := ih (fun y hy => hconts y (.tail x hy)) hline
      (by simpa using hrounds)
    exact ⟨hline', hkeeps.trans hkeeps'⟩

theorem delLoop_end (rounds : Nat) (h : Line st l []) : delLoop rounds st = st := by
  have hlength := h.length
  rw [append_nil] at hlength
  cases rounds with
  | zero => rfl
  | succ rounds => rw [delLoop, if_neg (by rw [h.cursor]; omega)]

theorem Line.not_behind (h : Line st l r) : ¬ st.cursor > st.size := by
  rw [h.cursor, h.length, length_append]
  omega

theorem delChar_end (h : Line st l []) : delChar st = st := by
  rw [delChar, delLoop_end _ h, if_neg h.not_behind]

variable {p : List UInt8} {j : Nat}

theorem delChar_line (hp : Piece p) (hr : Leads r) (h : Line st l (p ++ r)) :
    Line (delChar st) l r ∧ Keeps st (delChar st) := by
  obtain ⟨c, conts, rfl⟩ := exists_cons_of_ne_nil hp.ne_nil
  have hlength := h.length
  simp only [length_append, length_cons] at hlength
  obtain ⟨hline, hkeeps⟩ := @delLoop_line _ _ hr conts _ _ (st.size - st.cursor) hp.conts h
    (by rw [h.cursor]; omega)
  rw [delChar, if_neg hline.not_behind]
  exact ⟨hline, hkeeps⟩

/-! ## The cursor moves -/

theorem backLoop_conts {b : Bytes} (conts : List UInt8) : ∀ {j : Nat},
    (∀ k, k < conts.length → continues (b (j + 1 + k)) = true) → (0 < j → continues (b j) = false) →
      backLoop b (j + conts.length) = j := by
  induction conts with
  | nil =>
    intro j _ hj
    cases j with
    | zero => rfl
    | succ j => rw [length_nil, add_zero, backLoop, if_neg (by simp [hj])]
  | cons c conts ih =>
    intro j hconts hj
    have hlast := hconts conts.length (by simp)
    rw [length_cons, ← add_assoc, backLoop, if_pos (by
      rwa [show j + conts.length + 1 = j + 1 + conts.length by omega])]
    exact ih (fun k hk => hconts k (by simp; omega)) hj

theorem forwardLoop_conts {b : Bytes} (left : Nat) : ∀ {j n : Nat},
    (∀ k, k < n → continues (b (j + k)) = true) → n ≤ left →
      (n < left → continues (b (j + n)) = false) → forwardLoop b left j = j + n := by
  induction left with
  | zero =>
    intro j n _ hn _
    obtain rfl : n = 0 := by omega
    rfl
  | succ left ih =>
    intro j n hconts hn hstop
    cases n with
    | zero =>
      have hj : continues (b j) = false := hstop (by omega)
      rw [forwardLoop, if_neg (by simp [hj])]
      rfl
    | succ n =>
      have hj : continues (b j) = true := hconts 0 (by omega)
      rw [forwardLoop, if_pos hj, ih (n := n) (fun k hk => ?_) (by omega)
        (fun hn => ?_)]
      · omega
      · have := hconts (k + 1) (by omega)
        rwa [show j + (k + 1) = j + 1 + k by omega] at this
      · have := hstop (by omega)
        rwa [show j + (n + 1) = j + 1 + n by omega] at this

theorem Line.move (h : Line st l r) {l' r' : List UInt8} (heq : l ++ r = l' ++ r') :
    Line { st with cursor := l'.length } l' r' where
  cursor := rfl
  length := heq ▸ h.length
  bytes := heq ▸ h.bytes
  room := heq ▸ h.room
  nonzero := heq ▸ h.nonzero
  inside := h.inside

theorem moveLeft_zero (columns : Nat) (h : Line st [] r) : moveLeft columns st = (st, 0) := by
  cases columns with
  | zero => rfl
  | succ columns =>
    have hzero : st.cursor = 0 := h.cursor
    rw [moveLeft, if_pos hzero]

theorem back_line (hp : Piece p) (h : Line st (l ++ p) r) :
    st.cursor ≠ 0 ∧ backLoop st.buffer (st.cursor - 1) = l.length := by
  obtain ⟨c, conts, rfl⟩ := exists_cons_of_ne_nil hp.ne_nil
  have hcursor := h.cursor
  rw [length_append, length_cons] at hcursor
  have hbyte : ∀ k, k < conts.length + 1 → st.buffer (l.length + k) = (c :: conts).getD k 0 := by
    intro k hk
    rw [h.bytes _ (by simp; omega), append_assoc, getD_append_right _ _ _ _ (by omega),
      Nat.add_sub_cancel_left, getD_append _ _ _ _ (by simpa using hk)]
  refine ⟨by omega, ?_⟩
  rw [show st.cursor - 1 = l.length + conts.length by omega]
  refine backLoop_conts conts (fun k hk => ?_) (fun _ => ?_)
  · rw [show l.length + 1 + k = l.length + (k + 1) by omega, hbyte _ (by omega),
      getD_cons_succ, getD_eq_getElem _ _ hk]
    exact hp.conts _ (getElem_mem hk)
  · have := hbyte 0 (by omega)
    rw [add_zero] at this
    rw [this]
    exact hp.leads

theorem moveLeft_piece (hp : Piece p) (h : Line st (l ++ p) r) (columns : Nat) :
    moveLeft (columns + 1) st = ((moveLeft columns { st with cursor := l.length }).1,
        (moveLeft columns { st with cursor := l.length }).2 + 1) := by
  obtain ⟨hne, hback⟩ := back_line hp h
  rw [moveLeft, if_neg hne]
  rw [hback]

theorem moveRight_piece (hp : Piece p) (hr : Leads r) (h : Line st l (p ++ r)) (columns : Nat) :
    moveRight (columns + 1) st = moveRight columns { st with cursor := (l ++ p).length } := by
  obtain ⟨c, conts, rfl⟩ := exists_cons_of_ne_nil hp.ne_nil
  have hcursor := h.cursor
  have hlength := h.length
  simp only [length_append, length_cons] at hlength
  have hbyte : ∀ k, k < r.length + conts.length → st.buffer (st.cursor + 1 + k) =
      (conts ++ r).getD k 0 := by
    intro k hk
    rw [h.bytes _ (by simp; omega), hcursor, getD_append_right _ _ _ _ (by omega),
      show l.length + 1 + k - l.length = k + 1 by omega, cons_append, getD_cons_succ]
  have hforward : forwardLoop st.buffer (st.size - (st.cursor + 1)) (st.cursor + 1) =
      st.cursor + 1 + conts.length := by
    refine forwardLoop_conts _ (fun k hk => ?_) (by omega) (fun hlt => ?_)
    · rw [hbyte _ (by omega), getD_append _ _ _ _ hk, getD_eq_getElem _ _ hk]
      exact hp.conts _ (getElem_mem hk)
    · rw [hbyte _ (by omega), getD_append_right _ _ _ _ le_rfl, Nat.sub_self]
      cases r with
      | nil => exact absurd hlt (by simp at hlength; omega)
      | cons d r => exact hr
  rw [moveRight, if_neg (by omega), hforward]
  refine congrArg (fun n => moveRight columns { st with cursor := n }) ?_
  rw [length_append, length_cons]
  omega

theorem moveRight_end (columns : Nat) (h : Line st l []) : moveRight columns st = st := by
  have hlength := h.length
  rw [append_nil] at hlength
  cases columns with
  | zero => rfl
  | succ columns => rw [moveRight, if_pos (by rw [h.cursor]; omega)]

theorem strcpy_eq (s : List UInt8) : ∀ {i : Nat} {st : State},
    i + s.length < DSH_PROMPT_BUFFER_SIZE → strcpy s i st = { st with
        buffer := fun k =>
          if i ≤ k ∧ k ≤ i + s.length then s.getD (k - i) 0 else st.buffer k } := by
  induction s with
  | nil =>
    intro i st h
    rw [strcpy, store_eq (by simpa using h)]
    refine congrArg (fun b => { st with buffer := b }) (funext fun k => ?_)
    by_cases hk : k = i
    · rw [if_pos hk, if_pos (by omega)]
      rfl
    · rw [if_neg hk, if_neg (by simp; omega)]
  | cons c s ih =>
    intro i st h
    rw [length_cons] at h
    rw [strcpy, store_eq (by omega), ih (by omega)]
    refine congrArg (fun b => { st with buffer := b }) (funext fun k => ?_)
    dsimp only
    by_cases hk : i + 1 ≤ k ∧ k ≤ i + 1 + s.length
    · rw [if_pos hk, if_pos (by rw [length_cons]; omega),
        show k - i = k - (i + 1) + 1 by omega, getD_cons_succ]
    rw [if_neg hk]
    by_cases hlow : k = i
    · rw [if_pos hlow, if_pos (by omega), hlow, Nat.sub_self]
      rfl
    · rw [if_neg hlow, if_neg (by rw [length_cons]; omega)]

theorem strcpy_line (hover : st.overflow = false) (hs : ∀ c ∈ s, c ≠ 0)
    (hroom : s.length + 8 ≤ DSH_PROMPT_BUFFER_SIZE) :
    Line { strcpy s 0 st with cursor := s.length, size := s.length } s [] ∧
      Keeps st (strcpy s 0 st) := by
  rw [strcpy_eq s (by omega)]
  refine ⟨⟨rfl, by simp, fun k hk => ?_, by simpa using hroom, by simpa using hs, hover⟩,
    ⟨rfl, rfl, rfl, rfl, rfl, rfl, rfl⟩⟩
  rw [append_nil] at hk ⊢
  exact if_pos ⟨Nat.zero_le k, by omega⟩

/-- What `changeLine` leaves as it is. -/
structure Changes (st st' : State) (history : Nat → Option (List UInt8)) : Prop where
  wsCol : st'.wsCol = st.wsCol
  prompt : st'.prompt = st.prompt
  promptOffset : st'.promptOffset = st.promptOffset
  escape : st'.escape = st.escape
  skipRender : st'.skipRender = st.skipRender
  history : st'.history = history

theorem changeLine_line (h : Line st l r) (hj : st.history j = some s) (hs : ∀ c ∈ s, c ≠ 0)
    (hroom : s.length + 8 ≤ DSH_PROMPT_BUFFER_SIZE) :
    Line (changeLine true j st) s [] ∧ Changes st (changeLine true j st)
        (st.setHistory st.historyState (some (l ++ r))).history := by
  obtain ⟨hline, hkeeps⟩ := @strcpy_line (st.setHistory st.historyState (some (st.text 0))) _
    h.inside hs hroom
  have hlength : ((strcpy s 0 (st.setHistory st.historyState (some (st.text 0)))).text 0).length =
      s.length := by
    have htext := hline.text_all
    rw [append_nil] at htext
    exact congrArg length htext
  simp only [changeLine, hj, hlength]
  refine ⟨⟨hline.cursor, hline.length, hline.bytes, hline.room, hline.nonzero, hline.inside⟩,
    ⟨hkeeps.wsCol, hkeeps.prompt, hkeeps.promptOffset, hkeeps.escape, hkeeps.skipRender, ?_⟩⟩
  rw [← h.text_all]
  exact hkeeps.history

theorem changeLine_none {mem : Bool} (hj : st.history j = none) :
    changeLine mem j st = st := by
  simp only [changeLine, hj]

theorem changeLine_false : changeLine false j st = st := by
  cases hj : st.history j with
  | none => exact changeLine_none hj
  | some s => simp only [changeLine, hj, Bool.false_eq_true, if_false]

end Dancy.Shell.Prompt
