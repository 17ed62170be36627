import Dancy.Lib.Run

/-!
# The console driver (`kernel/base/console.c`)

The C integers of a console are `Int`, its cells and tab stops functions of
an index. Every access to an array checks the index and sets `fault` when
it is out of bounds; no other part of the code reads `fault`.
-/

namespace Dancy.Console

open Function List Option

/-- What `utf8_decode` returns. -/
inductive Utf8 where
  | value (c : Nat)
  | waitingNext
  | errorConsume
  | errorRetry

/-- `utf8_table`, for the upper five bits of a byte; `0` stands for `-1` too. -/
def utf8Table (i : Nat) : Nat :=
  if i < 16 then 0 else if i < 24 then 1 else if i < 28 then 2 else if i < 30 then 3
  else if i < 31 then 4 else 0

def utf8MaskTable (i : Nat) : Nat :=
  if i = 1 then 0x1F else if i = 2 then 0x0F else if i = 3 then 0x07 else 0

def utf8OverlongTable (i : Nat) : Nat :=
  if i = 1 then 0x80 else if i = 2 then 0x800 else if i = 3 then 0x10000 else 0

/-- `utf8_decode`, with the state after it. -/
def utf8Decode (state : Nat) (c : Nat) : Utf8 × Nat :=
  if state = 0 then
    if c < 0x80 then (.value c, 0)
    else
      let offset := utf8Table (c >>> 3)
      if offset ≤ 1 then (.errorConsume, 0)
      else
        let offset := offset - 1
        let val := c &&& utf8MaskTable offset
        (.waitingNext, (val <<< 4) ||| (offset <<< 2) ||| offset)
  else if utf8Table (c >>> 3) ≠ 1 then (.errorRetry, 0)
  else
    let offset := state &&& 0x0F
    let val := ((state &&& 0x7FFF0) <<< 2) ||| (c &&& 0x3F)
    if offset &&& 0x03 > 1 then (.waitingNext, (val <<< 4) ||| (offset - 1))
    else if val < utf8OverlongTable (offset >>> 2) then (.errorConsume, 0)
    else if (0xD800 ≤ val ∧ val ≤ 0xDFFF) ∨ val > 0x10FFFF then (.errorConsume, 0)
    else (.value val, 0)

/-! ## The state of a console -/

/-- `con_columns` and `con_rows`, as `con_init` takes them. -/
structure Screen where
  (columns rows : Nat)
  columns_ge : 70 ≤ columns
  columns_le : columns ≤ 128
  rows_ge : 25 ≤ rows

/-- The sizes of `con_init`; `none` is a frame buffer or glyphs of a size
that it does not take. -/
def conInit (fbWidth fbHeight glyphWidth glyphHeight : Nat) : Option Screen :=
  if fbWidth < 640 ∨ fbHeight < 480 then none
  else if glyphWidth < 8 ∨ glyphHeight < 16 then none
  else
    let columns := fbWidth / glyphWidth
    let rows := fbHeight / glyphHeight
    if h : columns < 70 ∨ rows < 25 then none
    else
      let columns' := if columns > 80 then columns - 1 else columns
      some ⟨min columns' 128, rows, by simp only [columns']; split <;> omega,
        min_le_right _ _, by omega⟩

/-- `con_cells`. -/
def Screen.cells (scr : Screen) : Nat := scr.columns * scr.rows

/-- `struct con_state`. The buffers are the main (`false`) and the
alternate one, `alt` tells which one is shown. -/
structure ConState where
  (x y scrollFirst scrollLast : Int)
  utf8State : Nat
  (wrapDelay cursorVisible : Bool)
  attr : UInt32
  escSize : Nat
  escBuffer : Nat → UInt8
  alt : Bool
  buffer : Bool → Int → UInt32
  tabs : Int → Bool
  cmd : Nat → Int
  fault : Bool

def escBufferSize : Nat := 128
def parametersSize : Nat := 16

def renderedBit : UInt32 := 0x80000000
def intensityBit : UInt32 := 0x40000000
def reversedBit : UInt32 := 0x20000000
def underlineBit : UInt32 := 0x10000000

def ConState.check (s : ConState) (ok : Bool) : ConState := if ok then s else { s with fault := true }

/-! ## Cells -/

section Cells

variable (scr : Screen)

def touchCell (s : ConState) (i : Int) : ConState := s.check (0 ≤ i ∧ i < scr.cells)

def ConState.cell (s : ConState) (i : Int) : UInt32 := s.buffer s.alt i

def setCell (s : ConState) (i : Int) (v : UInt32) : ConState :=
  let s := touchCell scr s i
  { s with buffer := update s.buffer s.alt (update (s.buffer s.alt) i v) }

/-- One cell is copied to another, if they differ. -/
def shiftCell (s : ConState) (dst src : Int) : ConState :=
  let s := touchCell scr (touchCell scr s dst) src
  let t0 := s.cell dst &&& ~~~renderedBit
  let t1 := s.cell src &&& ~~~renderedBit
  if t0 ≠ t1 then setCell scr s dst t1 else s

def fillCell (s : ConState) (i : Int) : ConState :=
  let s := touchCell scr s i
  if s.cell i &&& ~~~renderedBit ≠ s.attr then setCell scr s i s.attr else s

def moveCells (step : Int) : Nat → Int → Int → ConState → ConState
  | 0, _, _, s => s
  | n + 1, dst, src, s => moveCells step n (dst + step) (src + step) (shiftCell scr s dst src)

def fillCells : Nat → Int → ConState → ConState
  | 0, _, s => s
  | n + 1, i, s => fillCells n (i + 1) (fillCell scr s i)

/-- Cells get a value that is computed from the one before. -/
def mapCells (f : UInt32 → UInt32) : Nat → Int → ConState → ConState
  | 0, _, s => s
  | n + 1, i, s => mapCells f n (i + 1) (setCell scr s i (f (s.cell i)))

def conScrollUp (s : ConState) : ConState :=
  let dst := s.scrollFirst * scr.columns
  let movs := ((s.scrollLast - s.scrollFirst) * scr.columns).toNat
  fillCells scr scr.columns (dst + movs)
    (moveCells scr 1 movs dst (dst + scr.columns) s)

def conScrollDown (s : ConState) : ConState :=
  let dst := s.scrollLast * scr.columns + (scr.columns - 1)
  let movs := ((s.scrollLast - s.scrollFirst) * scr.columns).toNat
  fillCells scr scr.columns (s.scrollFirst * scr.columns)
    (moveCells scr (-1) movs dst (dst - scr.columns) s)

/-- The index of the cell under the cursor, and of the last one of its row. -/
def ConState.cursor (s : ConState) : Int := s.x + s.y * scr.columns
def ConState.rowEnd (s : ConState) : Int := (scr.columns - 1) + s.y * scr.columns

/-! ## Saved states and tab stops -/

def saveCursor (s : ConState) : ConState :=
  { s with cmd := update (update (update s.cmd
      0 (s.attr &&& 0x7FFFFFFF).toNat) 1 s.x) 2 s.y }

def saveMainState (s : ConState) : ConState :=
  { s with cmd := update (update (update (update
      (update s.cmd 3 (s.attr &&& 0x7FFFFFFF).toNat) 4 s.x) 5 s.y)
      6 s.scrollFirst) 7 s.scrollLast }

def restoreCursor (s : ConState) : ConState :=
  { s with
    attr := UInt32.ofNat (s.cmd 0).toNat
    x := s.cmd 1
    y := s.cmd 2
    wrapDelay := false }

def restoreMainState (s : ConState) : ConState :=
  { s with
    attr := UInt32.ofNat (s.cmd 3).toNat
    x := s.cmd 4
    y := s.cmd 5
    scrollFirst := s.cmd 6
    scrollLast := s.cmd 7
    wrapDelay := false }

def touchTab (s : ConState) (i : Int) : ConState := s.check (0 ≤ i ∧ i < scr.columns)

def setTab (s : ConState) (i : Int) (v : Bool) : ConState :=
  let s := touchTab scr s i
  { s with tabs := update s.tabs i v }

/-- A loop over tab stops, from `i` on. -/
def setTabs (f : Int → Bool) : Nat → Int → ConState → ConState
  | 0, _, s => s
  | n + 1, i, s => setTabs f n (i + 1) (setTab scr s i (f i))

def conInitVariables (s : ConState) : ConState :=
  let s := { s with
    attr := 0x00800000
    escSize := 0
    x := 0
    y := 0
    scrollFirst := 0
    scrollLast := scr.rows - 1
    utf8State := 0
    wrapDelay := false
    cursorVisible := true }
  let s := setTabs scr (fun i => i % 8 = 0) scr.columns 0 s
  let s := setTab scr s (scr.columns - 1) true
  { s with cmd := fun _ => 0 }

end Cells

/-! ## Parameters -/

def isDigit (c : UInt8) : Bool := 0x30 ≤ c ∧ c ≤ 0x39

/-- The digits of a parameter from index `k` on, of which `left` are inside
the buffer: the index after them and the value; `none` is past the buffer. -/
def scanDigits (buf : Nat → UInt8) : Nat → Nat → Nat → Option (Nat × Nat)
  | 0, _, _ => none
  | left + 1, k, parameter =>
    if isDigit (buf k) then
      scanDigits buf left (k + 1) (min (parameter * 10 + ((buf k).toNat - 0x30)) 0x10000)
    else some (k, parameter)

inductive Parsed where
  | parameters (ps : List Nat)
  | bad
  | fault
deriving DecidableEq

/-- The loop over the parameters from index `k` up to `e`; each round goes
on by one byte at least. -/
def parseLoop (buf : Nat → UInt8) (e : Nat) (type : UInt8) : Nat → Nat → List Nat → Parsed
  | 0, _, ps => .parameters ps
  | fuel + 1, k, ps =>
    if k < e then
      if buf k = type then .parameters ps
      else
        match scanDigits buf (escBufferSize - k) k 0 with
        | none => .fault
        | some (k', parameter) =>
          if buf k' ≠ 0x3B ∧ buf k' ≠ type then .bad
          else if ps.length = parametersSize then .bad
          else parseLoop buf e type fuel (k' + 1) (ps ++ [parameter])
    else .parameters ps

def ConState.escType (s : ConState) : UInt8 :=
  if s.escSize > 1 then s.escBuffer (s.escSize - 1) else 0

def ConState.csi (s : ConState) : Bool := s.escBuffer 1 = 0x5B
def ConState.csiQuestion (s : ConState) : Bool := s.escBuffer 2 = 0x3F

def parseParameters (s : ConState) : Parsed :=
  parseLoop s.escBuffer s.escSize s.escType s.escSize (if s.csiQuestion then 3 else 2) []

def sgrForeground (p : Nat) : Option Nat :=
  if p = 39 then some 7
  else if 30 ≤ p ∧ p ≤ 37 then some (p - 30)
  else if 90 ≤ p ∧ p ≤ 97 then some (p - 82)
  else none

def sgrBackground (p : Nat) : Option Nat :=
  if p = 49 then some 0
  else if 40 ≤ p ∧ p ≤ 47 then some (p - 40)
  else if 100 ≤ p ∧ p ≤ 107 then some (p - 92)
  else none

def sgrAttribute (attr : UInt32) (p : Nat) : UInt32 :=
  let a := if p = 0 then 0x00800000
    else if p = 1 then attr ||| intensityBit
    else if p = 4 then attr ||| underlineBit
    else if p = 7 then attr ||| reversedBit
    else if p = 22 then attr &&& ~~~intensityBit
    else if p = 24 then attr &&& ~~~underlineBit
    else if p = 27 then attr &&& ~~~reversedBit
    else attr
  let a := match sgrForeground p with
    | some fg => (a &&& (0xFF0FFFFF : UInt32)) ||| UInt32.ofNat ((15 - (fg &&& 15)) <<< 20)
    | none => a
  match sgrBackground p with
  | some bg => (a &&& (0xF0FFFFFF : UInt32)) ||| UInt32.ofNat ((bg &&& 15) <<< 24)
  | none => a

/-- Extended colors are skipped: the index after the skipping, and the
highest index that was read. -/
def sgrSkip (ps : List Nat) (i : Nat) : Nat × Nat :=
  if (ps.getD i 0 = 38 ∨ ps.getD i 0 = 48) ∧ i + 1 < ps.length then
    let j := if ps.getD (i + 1) 0 = 2 then i + 4 else i
    (if ps.getD (j + 1) 0 = 5 then j + 2 else j, j + 1)
  else (i, i)

/-- The loop over the parameters; `i` grows in each round. -/
def sgrLoop (ps : List Nat) : Nat → Nat → ConState → ConState
  | 0, _, s => s
  | fuel + 1, i, s =>
    if i < ps.length then
      let s := { s with attr := sgrAttribute s.attr (ps.getD i 0) }
      sgrLoop ps fuel ((sgrSkip ps i).1 + 1) (s.check ((sgrSkip ps i).2 < parametersSize))
    else s

def selectGraphicsRendition (ps : List Nat) (s : ConState) : ConState :=
  let ps := if ps = [] then [0] else ps
  sgrLoop ps ps.length 0 s

/-! ## Escape sequences and writing -/

section Sequences

variable (scr : Screen)

/-- A parameter that counts: missing or zero is one. -/
def countOf (ps : List Nat) (i : Nat) : Nat :=
  if ps.length < i + 1 ∨ ps.getD i 0 < 1 then 1 else ps.getD i 0

def choiceOf (ps : List Nat) (i : Nat) : Nat := if ps.length < i + 1 then 0 else ps.getD i 0

/-- The cursor goes down or right, up or left, or to a number. -/
def increased (v n : Int) (limit : Nat) : Int := if v + n < limit then v + n else limit - 1
def decreased (v n : Int) : Int := if v - n ≥ 0 then v - n else 0
def placed (n : Int) (limit : Nat) : Int := if n - 1 < limit then n - 1 else limit - 1

def insertCharacter (s : ConState) (n : Nat) : ConState :=
  (fun s => fillCell scr
    (moveCells scr (-1) (s.rowEnd scr - s.cursor scr).toNat (s.rowEnd scr) (s.rowEnd scr - 1) s)
    (s.cursor scr))^[n] s

def deleteCharacter (s : ConState) (n : Nat) : ConState :=
  (fun s => fillCell scr
    (moveCells scr 1 (s.rowEnd scr - s.cursor scr).toNat (s.cursor scr) (s.cursor scr + 1) s)
    (s.rowEnd scr))^[n] s

def eraseCharacter (s : ConState) (n : Nat) : ConState :=
  fillCells scr (min n (scr.columns + s.y * scr.columns - s.cursor scr).toNat) (s.cursor scr) s

/-- The loop of CSI I and of a tab character: the next stops from `i` on. -/
def nextTab : Nat → Int → Int → Nat → ConState → Int × ConState
  | 0, _, t, _, s => (t, s)
  | left + 1, i, t, n, s =>
    if n > 0 then
      let s := touchTab scr s i
      if s.tabs i then nextTab left (i + 1) i (n - 1) s else nextTab left (i + 1) t n s
    else (t, s)

def forwardTabulation (s : ConState) (n : Nat) : ConState :=
  let (t, s) := nextTab scr (scr.columns - (s.x + 1)).toNat (s.x + 1) (scr.columns - 1) n s
  { s with x := t, wrapDelay := false }

/-- The loop of CSI Z, from column `i` down; column 0 is a stop. -/
def previousTab : Nat → Nat → ConState → ConState
  | 0, n, s => if n > 0 then { s with x := 0 } else s
  | i + 1, n, s =>
    if n > 0 then
      let s := touchTab scr s (i + 1 : Nat)
      if s.tabs (i + 1 : Nat) then previousTab i (n - 1) { s with x := (i + 1 : Nat) }
      else previousTab i n s
    else s

def backwardTabulation (s : ConState) (n : Nat) : ConState :=
  let s := { s with wrapDelay := false }
  if s.x - 1 < 0 then s else previousTab scr (s.x - 1).toNat n s

/-- The cells from `t0` up to `t1` are erased. -/
def eraseRange (s : ConState) (t0 t1 : Int) : ConState :=
  mapCells scr (fun _ => s.attr) (t1 - t0).toNat t0 s

def eraseInDisplay (s : ConState) (n : Nat) : ConState :=
  if n = 0 then eraseRange scr s (s.cursor scr) scr.cells
  else if n = 1 then eraseRange scr s 0 (s.cursor scr + 1)
  else if n = 2 ∨ n = 3 then eraseRange scr s 0 scr.cells
  else s

def eraseInLine (s : ConState) (n : Nat) : ConState :=
  if n = 0 then eraseRange scr s (s.cursor scr) (scr.columns + s.y * scr.columns)
  else if n = 1 then eraseRange scr s (s.y * scr.columns) (s.cursor scr + 1)
  else if n = 2 then eraseRange scr s (s.y * scr.columns) (scr.columns + s.y * scr.columns)
  else s

/-- CSI L and CSI M: the region is scrolled from the row of the cursor on. -/
def scrollLines (scroll : ConState → ConState) (s : ConState) (n : Nat) : ConState :=
  let n := if s.y < s.scrollFirst ∨ s.y > s.scrollLast then 0 else min n scr.rows
  { scroll^[n] { s with scrollFirst := s.y } with scrollFirst := s.scrollFirst }

def insertLine (s : ConState) (n : Nat) : ConState := scrollLines scr (conScrollDown scr) s n
def deleteLine (s : ConState) (n : Nat) : ConState := scrollLines scr (conScrollUp scr) s n

def scrollUp (s : ConState) (n : Nat) : ConState := (conScrollUp scr)^[min n scr.rows] s
def scrollDown (s : ConState) (n : Nat) : ConState := (conScrollDown scr)^[min n scr.rows] s

def tabClear (s : ConState) (n : Nat) : ConState :=
  if n = 0 then if s.x < scr.columns - 1 then setTab scr s s.x false else s
  else if n = 3 then setTabs scr (fun _ => false) (scr.columns - 1) 0 s
  else s

/-- CSI h with a question mark. The loop over the cells counts with the
index of the parameters too, and ends past the last one of them. -/
def setModes : List Nat → ConState → ConState
  | [], s => s
  | n :: rest, s =>
    let s := if n = 25 then { s with cursorVisible := true } else s
    if n = 1049 then
      let s := if s.alt then s else saveMainState s
      mapCells scr (fun _ => 0) scr.cells 0 { s with alt := true }
    else setModes rest s

def resetModes : List Nat → ConState → ConState
  | [], s => s
  | n :: rest, s =>
    let s := if n = 25 then { s with cursorVisible := false } else s
    if n = 1049 ∧ s.alt then
      let s := mapCells scr (fun _ => 0) scr.cells 0 s
      mapCells scr (fun c => c &&& ~~~renderedBit) scr.cells 0
        (restoreMainState { s with alt := false })
    else resetModes rest s

def setScrollingRegion (s : ConState) (n m : Nat) : ConState :=
  let n := if n ≥ 1 then n else 1
  let m := if m ≥ 1 then m else scr.rows
  let m := if m ≤ scr.rows then m else scr.rows
  let n := if n ≤ m then n else m
  { s with scrollFirst := n - 1, scrollLast := m - 1 }

def reset (s : ConState) : ConState :=
  let s := mapCells scr (fun _ => 0) scr.cells 0 { s with alt := false }
  let s := mapCells scr (fun _ => 0) scr.cells 0 { s with alt := true }
  conInitVariables scr { s with alt := false }

def reverseIndex (s : ConState) : ConState :=
  if s.y = s.scrollFirst then conScrollDown scr s
  else if s.y > 0 then { s with y := s.y - 1 }
  else s

def handlePlain (s : ConState) : ConState :=
  if s.escType = 0x63 then reset scr s
  else if s.escType = 0x48 then setTab scr s s.x true
  else if s.escType = 0x4D then reverseIndex scr s
  else if s.escType = 0x37 then saveCursor s
  else if s.escType = 0x38 then restoreCursor s
  else s

/-- The CSI sequences that place the cursor; `none` is another sequence. -/
def cursorPlace (s : ConState) (type : UInt8) (ps : List Nat) : Option (Int × Int) :=
  let n := countOf ps 0
  let m := countOf ps 1
  if type = 0x41 then some (s.x, decreased s.y n)
  else if type = 0x42 then some (s.x, increased s.y n scr.rows)
  else if type = 0x43 then some (increased s.x n scr.columns, s.y)
  else if type = 0x44 then some (decreased s.x n, s.y)
  else if type = 0x45 then some (0, increased s.y n scr.rows)
  else if type = 0x46 then some (0, decreased s.y n)
  else if type = 0x47 then some (placed n scr.columns, s.y)
  else if type = 0x48 ∨ type = 0x66 then some (placed m scr.columns, placed n scr.rows)
  else if type = 0x64 then some (s.x, placed n scr.rows)
  else none

def handleCells (s : ConState) (type : UInt8) (ps : List Nat) : ConState :=
  if type = 0x40 then insertCharacter scr s (countOf ps 0)
  else if type = 0x49 then forwardTabulation scr s (countOf ps 0)
  else if type = 0x4A then eraseInDisplay scr s (choiceOf ps 0)
  else if type = 0x4B then eraseInLine scr s (choiceOf ps 0)
  else if type = 0x4C then insertLine scr s (countOf ps 0)
  else if type = 0x4D then deleteLine scr s (countOf ps 0)
  else if type = 0x50 then deleteCharacter scr s (countOf ps 0)
  else if type = 0x53 then scrollUp scr s (countOf ps 0)
  else if type = 0x54 then scrollDown scr s (countOf ps 0)
  else if type = 0x58 then eraseCharacter scr s (countOf ps 0)
  else if type = 0x5A then backwardTabulation scr s (countOf ps 0)
  else if type = 0x67 then tabClear scr s (choiceOf ps 0)
  else if type = 0x68 then if s.csiQuestion then setModes scr ps s else s
  else if type = 0x6C then if s.csiQuestion then resetModes scr ps s else s
  else if type = 0x72 then setScrollingRegion scr s (choiceOf ps 0) (choiceOf ps 1)
  else if type = 0x73 then if ps = [] then saveCursor s else s
  else if type = 0x75 then if ps = [] then restoreCursor s else s
  else s

def handleCsi (s : ConState) (ps : List Nat) : ConState :=
  if s.escType = 0x6D then selectGraphicsRendition ps s
  else
    match cursorPlace scr s s.escType ps with
    | some (x, y) => { s with x := x, y := y, wrapDelay := false }
    | none => handleCells scr s s.escType ps

def conHandleEscape (s : ConState) : ConState :=
  if s.csi then
    match parseParameters s with
    | .fault => { s with fault := true }
    | .bad => s
    | .parameters ps => handleCsi scr s ps
  else handlePlain scr s

/-! ## Writing -/

def conIncrementRow (s : ConState) : ConState :=
  let s := { s with y := s.y + 1 }
  if s.y = s.scrollLast + 1 then
    let s := conScrollUp scr s
    { s with y := s.y - 1 }
  else if s.y ≥ scr.rows then { s with y := scr.rows - 1 }
  else s

def appendEsc (s : ConState) (c : UInt8) : ConState :=
  let s := s.check (s.escSize < escBufferSize)
  { s with escBuffer := update s.escBuffer s.escSize c, escSize := s.escSize + 1 }

def clearEsc (s : ConState) : ConState := { s with escBuffer := fun _ => 0, escSize := 0 }

def tabulate (s : ConState) : ConState :=
  let (t, s) := nextTab scr (scr.columns - (s.x + 1)).toNat (s.x + 1) scr.columns 1 s
  if t ≥ scr.columns then { conIncrementRow scr s with x := 0 } else { s with x := t }

/-- A character goes to the cell under the cursor. -/
def putNormal (s : ConState) (c : UInt32) : ConState :=
  let s :=
    if s.wrapDelay ∧ s.x = scr.columns - 1 then conIncrementRow scr { s with x := 0 } else s
  let s := setCell scr s (s.cursor scr) (c ||| s.attr)
  if s.x + 1 ≥ scr.columns then { s with x := scr.columns - 1, wrapDelay := true }
  else { s with x := s.x + 1 }

def switchCharacter (s : ConState) (c : Nat) : ConState :=
  if c = 0x07 ∨ c = 0x0E ∨ c = 0x0F ∨ c = 0x7F then s
  else if c = 0x08 then { s with x := if s.x > 0 then s.x - 1 else s.x }
  else if c = 0x09 then tabulate scr s
  else if c = 0x0A then conIncrementRow scr { s with x := 0 }
  else if c = 0x0D then { s with x := 0 }
  else if c = 0x1B then appendEsc (if s.escSize ≠ 0 then clearEsc s else s) 0x1B
  else if c = 0x9B then
    appendEsc (appendEsc (if s.escSize ≠ 0 then clearEsc s else s) 0x1B) 0x5B
  else putNormal scr s (if c ≠ 0x20 then UInt32.ofNat c else 0)

def endCharacter (s : ConState) (c : Nat) : ConState :=
  let s := switchCharacter scr s c
  if s.x ≠ scr.columns - 1 then { s with wrapDelay := false } else s

def putCharacter (s : ConState) (c : Nat) : ConState :=
  let c := if c = 0x0C ∨ c = 0x0B then 0x0A else c
  if c = 0x18 ∨ c = 0x1A then clearEsc s
  else if s.escSize = 0 then endCharacter scr s c
  else if s.escSize = 1 ∧ (c = 0x37 ∨ c = 0x38) then
    let s := conHandleEscape scr (appendEsc s (UInt8.ofNat c))
    { s with
      escBuffer := update (update s.escBuffer 0 0) 1 0
      escSize := 0 }
  else if s.escSize + 2 > escBufferSize then endCharacter scr (clearEsc s) c
  else if (0x20 ≤ c ∧ c ≤ 0x3F) ∨ c = 0x5B then appendEsc s (UInt8.ofNat c)
  else if 0x40 ≤ c ∧ c ≤ 0x7E then clearEsc (conHandleEscape scr (appendEsc s (UInt8.ofNat c)))
  else endCharacter scr s c

/-- One round of the loop of `con_write_locked`; `true` is for the same byte
once more. -/
def writeRound (s : ConState) (byte : UInt8) : ConState × Bool :=
  if byte = 0 then (s, false)
  else
    let (u, state) := utf8Decode s.utf8State byte.toNat
    let s := { s with utf8State := state }
    match u with
    | .waitingNext => (s, false)
    | .errorRetry => (putCharacter scr s 0xFFFD, true)
    | .errorConsume => (putCharacter scr s 0xFFFD, false)
    | .value c => (putCharacter scr s (if c > 0xFFFFF then 0xFFFD else c), false)

/-- The loop over the bytes of a write; `none` is out of fuel. -/
def writeLoop : Nat → List UInt8 → ConState → Option ConState
  | _, [], s => some s
  | 0, _ :: _, _ => none
  | fuel + 1, byte :: data, s =>
    let (s, again) := writeRound scr s byte
    writeLoop fuel (if again then byte :: data else data) s

/-- The cell under the cursor is to be drawn again. -/
def startWrite (s : ConState) : ConState :=
  if s.cursorVisible then
    setCell scr s (s.cursor scr) (s.cell (s.cursor scr) &&& ~~~renderedBit)
  else s

def conWriteLocked (s : ConState) (data : List UInt8) (fuel : Nat) : Option ConState :=
  writeLoop scr fuel data (startWrite scr s)

/-- A byte with its second round, if there is one. -/
def writeByte (s : ConState) (byte : UInt8) : ConState :=
  let (s, again) := writeRound scr s byte
  if again then (writeRound scr s byte).1 else s

/-- A console as `con_init` leaves it. -/
def initialState : ConState :=
  conInitVariables scr
    { x := 0, y := 0, scrollFirst := 0, scrollLast := 0, utf8State := 0, wrapDelay := false,
      cursorVisible := false, attr := 0, escSize := 0, escBuffer := fun _ => 0, alt := false,
      buffer := fun _ _ => 0, tabs := fun _ => false, cmd := fun _ => 0, fault := false }

end Sequences

/-! ## The loops -/

/-- The attribute after the loop of CSI m, the places of the parameters that
it interprets, and all places that it reads. -/
structure SgrRun where
  attr : UInt32
  (interpreted reads : List Nat)

def sgrRun (parameters : Nat → Nat) (count : Nat) : (fuel i : Nat) → UInt32 → SgrRun
  | 0, _, attr => ⟨attr, [], []⟩
  | fuel + 1, i, attr =>
    if i < count then
      let parameter := parameters i
      let attr := sgrAttribute attr parameter
      if (parameter = 38 ∨ parameter = 48) ∧ i + 1 < count then
        let j := if parameters (i + 1) = 2 then i + 4 else i
        let k := if parameters (j + 1) = 5 then j + 2 else j
        let r := sgrRun parameters count fuel (k + 1) attr
        ⟨r.attr, i :: r.interpreted, i :: (i + 1) :: (j + 1) :: r.reads⟩
      else
        let r := sgrRun parameters count fuel (i + 1) attr
        ⟨r.attr, i :: r.interpreted, i :: r.reads⟩
    else ⟨attr, [], []⟩

section Modes

variable (scr : Screen)

def setMode (s : ConState) (n : Nat) : ConState :=
  let s := if n = 25 then { s with cursorVisible := true } else s
  if n = 1049 then
    let s := if s.alt then s else saveMainState s
    mapCells scr (fun _ => 0) scr.cells 0 { s with alt := true }
  else s

def resetMode (s : ConState) (n : Nat) : ConState :=
  let s := if n = 25 then { s with cursorVisible := false } else s
  if n = 1049 ∧ s.alt then
    let s := mapCells scr (fun _ => 0) scr.cells 0 s
    mapCells scr (fun c => c &&& ~~~renderedBit) scr.cells 0
      (restoreMainState { s with alt := false })
  else s

/-- The loop of CSI ? h and CSI ? l: the console after it and the places of
the parameters that it interprets. When a parameter switches the buffer, loops
over the cells count with the same index. -/
def modesRun (mode : ConState → Nat → ConState) (switches : ConState → Nat → Bool)
    (parameters : Nat → Nat) (count : Nat) : (fuel i : Nat) → ConState → ConState × List Nat
  | 0, _, s => (s, [])
  | fuel + 1, i, s =>
    if i < count then
      let n := parameters i
      let r := modesRun mode switches parameters count fuel
        ((if switches s n then scr.cells else i) + 1) (mode s n)
      (r.1, i :: r.2)
    else (s, [])

def setModesRun : (parameters : Nat → Nat) → (count fuel i : Nat) → ConState → ConState × List Nat :=
  modesRun scr (setMode scr) fun _ n => n = 1049

def resetModesRun :
    (parameters : Nat → Nat) → (count fuel i : Nat) → ConState → ConState × List Nat :=
  modesRun scr (resetMode scr) fun s n => n = 1049 ∧ s.alt

end Modes

/-- How many parameters behind a 38 or 48 belong to it. -/
def subParameters (p : Nat) (rest : List Nat) : Nat :=
  if p = 38 ∨ p = 48 then
    if rest.head? = some 2 then 4 else if rest.head? = some 5 then 2 else 0
  else 0

/-- The places of the parameters to interpret, the first of the list at `i`;
`skip` of them belong to the colour before. -/
def sgrPlaces : (skip : Nat) → List Nat → (i : Nat) → List Nat
  | _, [], _ => []
  | skip + 1, _ :: rest, i => sgrPlaces skip rest (i + 1)
  | 0, p :: rest, i => i :: sgrPlaces (subParameters p rest) rest (i + 1)

/-- Each parameter of CSI m is interpreted exactly once and from left to right,
without the colours behind a 38 or 48, and none is read behind those that were
given. -/
structure SgrInOrder (parameters : Nat → Nat) (ps : List Nat) (attr : UInt32) : Prop where
  interpreted : (sgrRun parameters ps.length ps.length 0 attr).interpreted = sgrPlaces 0 ps 0
  reads : ∀ j ∈ (sgrRun parameters ps.length ps.length 0 attr).reads, j < ps.length
  result : (sgrRun parameters ps.length ps.length 0 attr).attr =
    (sgrPlaces 0 ps 0).foldl (fun a i => sgrAttribute a (ps.getD i 0)) attr

/-- A loop over modes interprets each parameter exactly once and from left to
right. -/
def ModesInOrder (mode : ConState → Nat → ConState)
    (run : (parameters : Nat → Nat) → (count fuel i : Nat) → ConState → ConState × List Nat)
    (parameters : Nat → Nat) (ps : List Nat) (s : ConState) : Prop :=
  run parameters ps.length ps.length 0 s = (ps.foldl mode s, range ps.length)

/-! ## CSI m -/

/-- A colour with three parts stands before another parameter, which is not 5:
behind the colour the code looks for a colour of the other kind. -/
def ColorsFollowed : (skip : Nat) → List Nat → Prop
  | _, [] => True
  | skip + 1, _ :: rest => ColorsFollowed skip rest
  | 0, p :: rest =>
    ((p = 38 ∨ p = 48) → rest.head? = some 2 → ∃ q, rest[4]? = some q ∧ q ≠ 5) ∧
      ColorsFollowed (subParameters p rest) rest

theorem sgrPlaces_drop (skip : Nat) : ∀ (rest : List Nat) (i : Nat),
    sgrPlaces skip rest i = sgrPlaces 0 (rest.drop skip) (i + skip) := by
  induction skip with
  | zero => simp
  | succ skip ih =>
    intro rest i
    cases rest with
    | nil => rfl
    | cons p rest =>
      rw [sgrPlaces, ih, drop_succ_cons]
      congr 1
      omega

theorem colorsFollowed_drop (skip : Nat) : ∀ rest : List Nat,
    ColorsFollowed skip rest ↔ ColorsFollowed 0 (rest.drop skip) := by
  induction skip with
  | zero => simp
  | succ skip ih =>
    intro rest
    cases rest with
    | nil => exact Iff.rfl
    | cons p rest => exact ih rest

theorem le_of_mem_sgrPlaces (rest : List Nat) : ∀ (skip i : Nat), ∀ j ∈ sgrPlaces skip rest i,
    i ≤ j ∧ j < i + rest.length := by
  induction rest with
  | nil =>
    intro skip i j hj
    cases hj
  | cons p rest ih =>
    intro skip i j hj
    rw [length_cons]
    cases skip with
    | succ skip =>
      have := ih skip (i + 1) j hj
      omega
    | zero =>
      rcases mem_cons.mp hj with rfl | hj
      · omega
      · have := ih _ (i + 1) j hj
        omega

variable {parameters : Nat → Nat} {count : Nat} {attr : UInt32}

theorem sgrRun_interpreted_le (fuel : Nat) :
    ∀ {i : Nat} {attr : UInt32}, ∀ j ∈ (sgrRun parameters count fuel i attr).interpreted, i ≤ j := by
  induction fuel with
  | zero =>
    intro i attr j hj
    cases hj
  | succ fuel ih =>
    intro i attr j hj
    rw [sgrRun] at hj
    split at hj
    · dsimp only at hj
      split at hj
      · rcases mem_cons.mp hj with rfl | hj
        · omega
        have := ih j hj
        split at this
        all_goals
          split at this
          all_goals omega
      · rcases mem_cons.mp hj with rfl | hj
        · exact le_rfl
        · exact Nat.le_of_succ_le (ih j hj)
    · cases hj

theorem sgrRun_attr (parameters : Nat → Nat) (count fuel : Nat) : ∀ (i : Nat) (attr : UInt32),
    (sgrRun parameters count fuel i attr).attr =
      (sgrRun parameters count fuel i attr).interpreted.foldl
        (fun a j => sgrAttribute a (parameters j)) attr := by
  induction fuel with
  | zero => exact fun _ _ => rfl
  | succ fuel ih =>
    intro i attr
    rw [sgrRun]
    split
    · dsimp only
      split
      · exact ih _ _
      · exact ih _ _
    · rfl

theorem sgrRun_end {count i : Nat} (h : count ≤ i) (fuel : Nat) (attr : UInt32) :
    sgrRun parameters count fuel i attr = ⟨attr, [], []⟩ := by
  cases fuel with
  | zero => rfl
  | succ fuel => rw [sgrRun, if_neg (not_lt.mpr h)]

/-- What a run over the rest of the parameters is to be, with `skip` of them
that belong to the colour before. -/
def RestInOrder (parameters : Nat → Nat) (count fuel : Nat) (skip : Nat) (rest : List Nat) (i : Nat)
    (attr : UInt32) : Prop :=
  (sgrRun parameters count fuel (i + skip) attr).interpreted = sgrPlaces skip rest i ∧
    ∀ j ∈ (sgrRun parameters count fuel (i + skip) attr).reads, j < count

/-- A round of the loop of CSI m at a parameter that begins no colour with
three parts. -/
theorem sgrRun_round {count fuel i p : Nat} {rest : List Nat} (hcount : count = i + 1 + rest.length)
    (hp : parameters i = p) (hhead : ∀ q, rest.head? = some q → parameters (i + 1) = q)
    (hplain : (p = 38 ∨ p = 48) → rest.head? ≠ some 2) :
    RestInOrder parameters count (fuel + 1) 0 (p :: rest) i attr ↔
      RestInOrder parameters count fuel (subParameters p rest) rest (i + 1)
        (sgrAttribute attr p) := by
  rw [RestInOrder, RestInOrder]
  simp only [add_zero]
  rw [sgrRun, if_pos (by omega), sgrPlaces]
  dsimp only
  rw [hp]
  by_cases hcolor : p = 38 ∨ p = 48
  · rw [subParameters, if_pos hcolor, if_neg (hplain hcolor)]
    cases rest with
    | nil =>
      rw [if_neg (by rw [length_nil] at hcount; omega)]
      simp [show i < count by omega]
    | cons q rest =>
      have hq : parameters (i + 1) = q := hhead q rfl
      have hne : ¬ q = 2 := fun h => hplain hcolor (by rw [h]; rfl)
      rw [length_cons] at hcount
      rw [if_pos ⟨hcolor, by omega⟩, hq, if_neg hne, hq]
      by_cases hfive : q = 5
      · rw [if_pos hfive, if_pos (by rw [hfive]; rfl)]
        simp [show i < count by omega, show i + 1 < count by omega]
      · rw [if_neg hfive, if_neg (by simpa using hfive)]
        simp [show i < count by omega, show i + 1 < count by omega]
  · rw [subParameters, if_neg hcolor, if_neg (fun h => hcolor h.1)]
    simp [show i < count by omega]

theorem sgrRun_round_color {count fuel i p : Nat} {rest : List Nat}
    (hcount : count = i + 1 + rest.length) (hp : parameters i = p)
    (hrest : ∀ j (h : j < rest.length), parameters (i + 1 + j) = rest[j]) (hcolor : p = 38 ∨ p = 48)
    (hhead : rest.head? = some 2) :
    RestInOrder parameters count (fuel + 1) 0 (p :: rest) i attr ↔
      (∃ q, rest[4]? = some q ∧ q ≠ 5) ∧
        RestInOrder parameters count fuel 4 rest (i + 1) (sgrAttribute attr p) := by
  have hpos : 0 < rest.length := by
    cases rest with
    | nil => cases hhead
    | cons _ _ => simp
  have htwo : parameters (i + 1) = 2 := by
    have h0 := hrest 0 hpos
    rw [h0]
    rw [head?_eq_getElem?, getElem?_eq_getElem hpos] at hhead
    exact some.inj hhead
  have hsub : subParameters p rest = 4 := by rw [subParameters, if_pos hcolor, if_pos hhead]
  rw [RestInOrder, RestInOrder]
  simp only [add_zero]
  rw [sgrRun, if_pos (by omega), sgrPlaces, hsub]
  dsimp only
  rw [hp, if_pos ⟨hcolor, by omega⟩, if_pos htwo]
  by_cases hlen : 4 < rest.length
  · have hlast : parameters (i + 4 + 1) = rest[4] := by
      have hfour := hrest 4 hlen
      rwa [show i + 1 + 4 = i + 4 + 1 by omega] at hfour
    rw [hlast, getElem?_eq_getElem hlen]
    by_cases hfive : rest[4] = 5
    · -- Behind the colour there is a 5, which is taken for a part of it.
      rw [if_pos hfive]
      constructor
      · rintro ⟨hplaces, -⟩
        have hmem : i + 5 ∈ sgrPlaces 4 rest (i + 1) := by
          rw [sgrPlaces_drop, drop_eq_getElem_cons hlen, sgrPlaces]
          simp
        rw [← (cons.inj hplaces).2] at hmem
        have := sgrRun_interpreted_le fuel _ hmem
        omega
      · rintro ⟨⟨q, hq, hne⟩, -⟩
        exact absurd hfive (by rw [some.inj hq]; exact hne)
    · simp [hfive, show i < count by omega, show i + 1 < count by omega,
        show i + 4 + 1 < count by omega]
  · -- The code reads behind the parameters that were given.
    constructor
    · rintro ⟨-, hreads⟩
      have := hreads (i + 4 + 1) (by simp)
      omega
    · rintro ⟨⟨q, hq, -⟩, -⟩
      rw [getElem?_eq_none (by omega)] at hq
      cases hq

theorem sgrRun_iff (fuel : Nat) : ∀ {rest : List Nat}
    {i : Nat} {attr : UInt32}, rest.length ≤ fuel → count = i + rest.length →
      (∀ j (h : j < rest.length), parameters (i + j) = rest[j]) →
        (RestInOrder parameters count fuel 0 rest i attr ↔ ColorsFollowed 0 rest) := by
  induction fuel with
  | zero =>
    intro rest i attr hfuel _ _
    obtain rfl := eq_nil_of_length_eq_zero (Nat.le_zero.mp hfuel)
    simp [RestInOrder, sgrRun, sgrPlaces, ColorsFollowed]
  | succ fuel ih =>
    intro rest i attr hfuel hcount hmem
    cases rest with
    | nil =>
      have hpast : count ≤ i + 0 := le_of_eq hcount
      rw [RestInOrder, sgrRun_end hpast]
      simp [sgrPlaces, ColorsFollowed]
    | cons p rest =>
      rw [length_cons] at hfuel hcount
      have hp : parameters i = p := hmem 0 (Nat.succ_pos _)
      have hrest : ∀ j (h : j < rest.length), parameters (i + 1 + j) = rest[j] := by
        intro j hj
        rw [add_assoc, add_comm 1]
        exact hmem (j + 1) (Nat.succ_lt_succ hj)
      -- The loop goes on behind the parameters of this round.
      have hnext : ∀ skip, RestInOrder parameters count fuel skip rest (i + 1)
          (sgrAttribute attr p) ↔ ColorsFollowed skip rest := by
        intro skip
        rw [RestInOrder, sgrPlaces_drop, colorsFollowed_drop]
        by_cases hskip : skip ≤ rest.length
        · have hlen : (rest.drop skip).length = rest.length - skip := length_drop
          have hdrop : ∀ j (h : j < (rest.drop skip).length),
              parameters (i + 1 + skip + j) = (rest.drop skip)[j] := by
            intro j hj
            simp [← hrest (skip + j) (by omega), add_assoc (i + 1)]
          have hends : count = i + 1 + skip + (rest.drop skip).length := by omega
          exact ih (by omega) hends hdrop
        · rw [sgrRun_end (by omega), drop_eq_nil_of_le (by omega)]
          simp [sgrPlaces, ColorsFollowed]
      rw [ColorsFollowed]
      by_cases hthree : (p = 38 ∨ p = 48) ∧ rest.head? = some 2
      · rw [sgrRun_round_color (by omega) hp hrest hthree.1 hthree.2, hnext, subParameters,
          if_pos hthree.1, if_pos hthree.2]
        exact ⟨fun h => ⟨fun _ _ => h.1, h.2⟩, fun h => ⟨h.1 hthree.1 hthree.2, h.2⟩⟩
      have hplain : (p = 38 ∨ p = 48) → rest.head? ≠ some 2 := fun h1 h2 => hthree ⟨h1, h2⟩
      rw [sgrRun_round (by omega) hp ?_ hplain, hnext]
      · exact ⟨fun h => ⟨fun h1 h2 => absurd h2 (hplain h1), h⟩, fun h => h.2⟩
      intro q hq
      cases rest with
      | nil => cases hq
      | cons q' rest =>
        obtain rfl := some.inj hq
        exact hrest 0 (Nat.succ_pos _)

theorem sgrInOrder_iff {ps : List Nat} (hmem : ∀ i (h : i < ps.length), parameters i = ps[i]) :
    SgrInOrder parameters ps attr ↔ ColorsFollowed 0 ps := by
  have hiff : RestInOrder parameters ps.length ps.length 0 ps 0 attr ↔ ColorsFollowed 0 ps :=
    sgrRun_iff ps.length le_rfl (zero_add _).symm
      fun j hj => by simpa only [zero_add] using hmem j hj
  refine ⟨fun h => hiff.mp ⟨h.interpreted, h.reads⟩, fun h => ?_⟩
  obtain ⟨hplaces, hreads⟩ := hiff.mpr h
  refine ⟨hplaces, hreads, ?_⟩
  rw [sgrRun_attr, hplaces]
  refine foldl_ext _ _ _ fun a j hj => ?_
  have hlt := (le_of_mem_sgrPlaces ps 0 0 j hj).2
  rw [zero_add] at hlt
  simp [hmem j hlt, getElem?_eq_getElem hlt]

/-! ## CSI ? h and CSI ? l -/

section Modes

variable {scr : Screen} {mode : ConState → Nat → ConState} {switches : ConState → Nat → Bool}
  {parameters : Nat → Nat} {count : Nat}

/-- No parameter but the last one switches the buffer. -/
def SwitchLast (mode : ConState → Nat → ConState) (switches : ConState → Nat → Bool) :
    List Nat → ConState → Prop
  | [], _ => True
  | n :: rest, s => (switches s n = true → rest = []) ∧ SwitchLast mode switches rest (mode s n)

theorem modesRun_end {i : Nat} (h : count ≤ i) (fuel : Nat) (s : ConState) :
    modesRun scr mode switches parameters count fuel i s = (s, []) := by
  cases fuel with
  | zero => rfl
  | succ fuel => rw [modesRun, if_neg (not_lt.mpr h)]

theorem Screen.lt_cells (scr : Screen) : 16 < scr.cells := by
  have hmul : 70 * 25 ≤ scr.columns * scr.rows := Nat.mul_le_mul scr.columns_ge scr.rows_ge
  rw [Screen.cells]
  omega

theorem modesRun_iff (hcount : count ≤ parametersSize) (rest : List Nat) :
    ∀ {fuel i : Nat} {s : ConState}, rest.length ≤ fuel → count = i + rest.length →
      (∀ j (h : j < rest.length), parameters (i + j) = rest[j]) →
        (modesRun scr mode switches parameters count fuel i s =
            (rest.foldl mode s, range' i rest.length) ↔ SwitchLast mode switches rest s) := by
  induction rest with
  | nil =>
    intro fuel i s _ hend _
    have hpast : count ≤ i := le_of_eq hend
    rw [modesRun_end hpast]
    simp [SwitchLast]
  | cons n rest ih =>
    intro fuel i s hfuel hend hmem
    rw [length_cons] at hfuel hend
    have hn : parameters i = n := hmem 0 (Nat.succ_pos _)
    have hrest : ∀ j (h : j < rest.length), parameters (i + 1 + j) = rest[j] := by
      intro j hj
      rw [add_assoc, add_comm 1]
      exact hmem (j + 1) (Nat.succ_lt_succ hj)
    cases fuel with
    | zero => cases hfuel
    | succ fuel =>
      rw [modesRun, if_pos (by omega), hn, foldl_cons, length_cons, range'_succ, SwitchLast]
      dsimp only
      by_cases hswitch : switches s n = true
      · -- The index counts the cells; the rest is not interpreted.
        have hpast : count ≤ scr.cells + 1 := by
          have := scr.lt_cells
          rw [parametersSize] at hcount
          omega
        rw [if_pos hswitch, modesRun_end hpast]
        cases rest with
        | nil => simp [SwitchLast]
        | cons m rest => simp [hswitch]
      · rw [if_neg hswitch]
        have := @ih fuel (i + 1) (mode s n) (by omega) (by omega) hrest
        simp only [Prod.ext_iff, cons.injEq, true_and] at this ⊢
        rw [this]
        simp [hswitch]

theorem modesInOrder_iff {ps : List Nat} {s : ConState} (hps : ps.length ≤ parametersSize)
    (hmem : ∀ i (h : i < ps.length), parameters i = ps[i]) :
    ModesInOrder mode (modesRun scr mode switches) parameters ps s ↔
      SwitchLast mode switches ps s := by
  rw [ModesInOrder, range_eq_range']
  exact modesRun_iff hps ps le_rfl (zero_add _).symm
    fun j hj => by simpa only [zero_add] using hmem j hj

theorem switchLast_set (ps : List Nat) : ∀ s : ConState,
    SwitchLast (setMode scr) (fun _ n => n = 1049) ps s ↔ 1049 ∉ ps.dropLast := by
  induction ps with
  | nil => simp [SwitchLast]
  | cons n ps ih =>
    intro s
    rw [SwitchLast, ih]
    cases ps with
    | nil => simp
    | cons m ps => simp [eq_comm]

theorem resetMode_alt {s : ConState} {n : Nat} (h : ¬ (n = 1049 ∧ s.alt = true)) :
    (resetMode scr s n).alt = s.alt := by
  unfold resetMode
  by_cases hn : n = 25
  · rw [if_pos hn, if_neg (by rw [hn]; simp)]
  · rw [if_neg hn, if_neg h]

theorem switchLast_reset (ps : List Nat) : ∀ s : ConState,
    SwitchLast (resetMode scr) (fun s n => n = 1049 ∧ s.alt) ps s ↔
      (s.alt = true → 1049 ∉ ps.dropLast) := by
  induction ps with
  | nil => simp [SwitchLast]
  | cons n ps ih =>
    intro s
    rw [SwitchLast, ih]
    cases ps with
    | nil => simp
    | cons m ps =>
      rw [dropLast_cons_of_ne_nil (cons_ne_nil _ _), mem_cons]
      by_cases hswitch : n = 1049 ∧ s.alt = true
      · simp [hswitch.1, hswitch.2]
      rw [resetMode_alt hswitch]
      have hfirst : s.alt = true → ¬ 1049 = n := fun halt hn => hswitch ⟨hn.symm, halt⟩
      refine ⟨fun h halt hmem => ?_, fun h => ⟨?_, fun halt hmem => h halt (.inr hmem)⟩⟩
      · rcases hmem with hmem | hmem
        · exact hfirst halt hmem
        · exact h.2 halt hmem
      · intro hbad
        exact absurd (of_decide_eq_true hbad) hswitch

end Modes

/-- The parameters of a sequence are interpreted in order just when each
colour with three parts stands before another parameter that is not 5, and
when no parameter but the last one switches to the other buffer. -/
theorem csi_parameters (scr : Screen) (s : ConState) {ps : List Nat} {parameters : Nat → Nat}
    (hps : ps.length ≤ parametersSize) (hmem : ∀ i (h : i < ps.length), parameters i = ps[i]) :
    (SgrInOrder parameters ps s.attr ↔ ColorsFollowed 0 ps) ∧
      (ModesInOrder (setMode scr) (setModesRun scr) parameters ps s ↔ 1049 ∉ ps.dropLast) ∧
      (ModesInOrder (resetMode scr) (resetModesRun scr) parameters ps s ↔
        (s.alt = true → 1049 ∉ ps.dropLast)) :=
  ⟨sgrInOrder_iff hmem, (modesInOrder_iff hps hmem).trans (switchLast_set ps s),
    (modesInOrder_iff hps hmem).trans (switchLast_reset ps s)⟩

/-- The parameters 1 and 25. -/
theorem csi_parameters_two :
    [1, 25].length ≤ parametersSize ∧
      (SgrInOrder (fun i => [1, 25].getD i 0) [1, 25] 0x00800000 ↔ ColorsFollowed 0 [1, 25]) :=
  ⟨by decide, (csi_parameters ⟨80, 25, by decide, by decide, by decide⟩
      (initialState ⟨80, 25, by decide, by decide, by decide⟩) (by decide)
      fun i h => by
        rw [getD_eq_getElem?_getD, getElem?_eq_getElem h, getD_some]).1⟩

/-- `CSI 38;2;1;2;3;5;1 m` interprets the first parameter only, and
`CSI ? 1049;25 h` too. -/
theorem csi_parameters_skipped :
    (∀ attr, (sgrRun (fun i => [38, 2, 1, 2, 3, 5, 1].getD i 0) 7 7 0 attr).interpreted = [0]) ∧
      (∀ attr, ¬ SgrInOrder (fun i => [38, 2, 1, 2, 3, 5, 1].getD i 0) [38, 2, 1, 2, 3, 5, 1] attr) ∧
      ∀ scr s, ¬ ModesInOrder (setMode scr) (setModesRun scr) (fun i => [1049, 25].getD i 0)
        [1049, 25] s := by
  have hrun : ∀ attr,
      (sgrRun (fun i => [38, 2, 1, 2, 3, 5, 1].getD i 0) 7 7 0 attr).interpreted = [0] :=
    fun attr => rfl
  refine ⟨hrun, fun attr h => ?_, fun scr s h => ?_⟩
  · exact absurd ((hrun attr).symm.trans h.interpreted) (by decide)
  have hmem : ∀ i (h : i < [1049, 25].length), [1049, 25].getD i 0 = [1049, 25][i] := by
    intro i hi
    rw [getD_eq_getElem?_getD, getElem?_eq_getElem hi, getD_some]
  have hlast := (switchLast_set _ _).mp ((modesInOrder_iff (by decide) hmem).mp h)
  exact hlast (by decide)

end Dancy.Console
