import Dancy.Lib.Bytes
import Dancy.Libc.Stream

/-!
# Lines (`getdelim.c`)

The caller's block is used as long as it has room; then larger blocks take its
place. `malloc k` is the answer of the `k`-th allocation: the bytes that happen
to be in the block, or `none`. An access outside of a block is undefined, which
is `none` for the whole call.
-/

namespace Dancy.Libc.Getdelim

/-- `*lineptr` with the block that it points to, and `*n`. -/
structure LinePtr where
  line : Option (List UInt8)
  n : Nat

/-- `line` and `size`. `own` tells that the block is still the one of the
caller; otherwise `caller` is that block, as it has been left. -/
structure Line where
  block : List UInt8
  size : Nat
  own : Bool
  caller : Option (List UInt8)

/-- What `*lineptr` points to. -/
def Line.leave (line : Line) : Option (List UInt8) := if line.own then some line.block else line.caller

def newBlock (bytes : Lib.Bytes) (size : Nat) : List UInt8 := (List.range size).map bytes

section

variable (malloc : Nat → Option Lib.Bytes)

def defaultSize : Nat := 128

/-- The allocation of `default_size`. -/
def defaultLine (caller : Option (List UInt8)) (k : Nat) : Option Line × Nat :=
  match malloc k with
  | none => (none, k + 1)
  | some bytes => (some ⟨newBlock bytes defaultSize, defaultSize, false, caller⟩, k + 1)

/-- The first block: the caller's, one of the size that is asked for, or one of
the default size. -/
def firstLine (p : LinePtr) (k : Nat) : Option Line × Nat :=
  match p.line with
  | some block => if p.n = 0 then defaultLine malloc (some block) k else (some ⟨block, p.n, true, none⟩, k)
  | none =>
    if p.n = 0 then defaultLine malloc none k
    else
      match malloc k with
      | none => defaultLine malloc none (k + 1)
      | some bytes => (some ⟨newBlock bytes p.n, p.n, false, none⟩, k + 1)

def newSize (size : Nat) : Nat := (size + 0x1000) &&& 0xFFFFF000

def growLine (line : Line) (bytes : Lib.Bytes) : Option Line :=
  if line.block.length < line.size ∨ newSize line.size < line.size then none
  else some
    { block := line.block.take line.size ++ (newBlock bytes (newSize line.size)).drop line.size
      size := newSize line.size
      own := false
      caller := line.leave }

/-- Room for a byte and the zero behind it, and some more. -/
def makeRoom (line : Line) (i k : Nat) : Option (Option Line × Nat) :=
  if i + 16 ≥ line.size then
    match malloc k with
    | none => some (none, k + 1)
    | some bytes => (growLine line bytes).map fun line => (some line, k + 1)
  else some (some line, k)

def storeByte (line : Line) (i : Nat) (c : UInt8) : Option Line :=
  if i + 1 < line.block.length then
    some { line with block := (line.block.set i c).set (i + 1) 0 }
  else none

/-- The value of a loop or a call: `none` is `-1`. -/
structure Got (α δ : Type) where
  r : Option Nat
  line : α
  stream : Stream δ
  mallocs : Nat

variable {δ : Type} (K : Calls δ)

/-- The loop of `locked`; there are `left` bytes up to the limit. -/
def lineLoop (delimiter : UInt8) : (left i : Nat) → Line → Stream δ → (k : Nat) →
    Option (Got Line δ)
  | 0, _, line, s, k => some ⟨none, line, s, k⟩
  | left + 1, i, line, s, k =>
    match makeRoom malloc line i k with
    | none => none
    | some (none, k) => some ⟨none, line, s, k⟩
    | some (some line, k) =>
      match fgetc K s with
      | (none, s) => some ⟨none, line, s, k⟩
      | (some c, s) =>
        match storeByte line i c with
        | none => none
        | some line =>
          if c = delimiter then some ⟨some (i + 1), line, s, k⟩
          else lineLoop delimiter left (i + 1) line s k

def lineLimit : Nat := 0x10000000 - 16

def getdelim (p : LinePtr) (delimiter : Int) (s : Stream δ) (k : Nat) :
    Option (Got LinePtr δ) :=
  match firstLine malloc p k with
  | (none, k) => some ⟨none, p, s, k⟩
  | (some line, k) =>
    if line.block.length = 0 then none
    else
      let line := { line with block := line.block.set 0 0 }
      match lineLoop malloc K (UInt8.ofNat (delimiter % 256).toNat) lineLimit 0 line s k with
      | none => none
      | some got =>
        match got.r with
        | none => some ⟨none, ⟨got.line.leave, p.n⟩, got.stream, got.mallocs⟩
        | some r => some ⟨some r, ⟨some got.line.block, got.line.size⟩, got.stream, got.mallocs⟩

/-- What a call has returned: the length, and the block. -/
structure Returned where
  length : Nat
  block : List UInt8
  size : Nat

/-- Calls of `getdelim` until it returns `-1`, as often as the counter allows. -/
def getdelims (delimiter : Int) : (calls : Nat) → LinePtr → Stream δ → (k : Nat) →
    Option (List Returned)
  | 0, _, _, _ => none
  | calls + 1, p, s, k =>
    match getdelim malloc K p delimiter s k with
    | none => none
    | some got =>
      match got.r with
      | none => some []
      | some r =>
        (getdelims delimiter calls got.line got.stream got.mallocs).map
          (⟨r, got.line.line.getD [], got.line.n⟩ :: ·)

end

end Dancy.Libc.Getdelim
