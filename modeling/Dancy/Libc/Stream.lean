import Mathlib.Algebra.Order.Ring.Nat

/-!
# Streams (`fgetc.c`, `fread.c`, `fputc.c`, `fwrite.c`, `ungetc.c`, `fseeko.c`, `ftello.c`, `_io.c`)

A stream has one buffer, for what was read ahead or for what is not written
yet, and room for one byte that was pushed back. What the system calls do is
a parameter. The mutex of a stream is taken in each call.
-/

namespace Dancy.Libc

open List

/-- `_mode`. -/
inductive OpenMode where
  | O_RDONLY
  | O_WRONLY
  | O_RDWR
deriving DecidableEq

/-- The low byte of `_state`; `setvbuf` refuses other values. -/
inductive Buffering where
  | IOFBF
  | IOLBF
  | IONBF
deriving DecidableEq

inductive Whence where
  | SEEK_SET
  | SEEK_CUR
  | SEEK_END

/-- The system calls on a descriptor in the state `δ`; `none` is `-1`. -/
structure Calls (δ : Type) where
  read : δ → (size : Nat) → Option (List UInt8) × δ
  write : δ → List UInt8 → Option Nat × δ
  lseek : δ → (offset : Int) → Whence → Option Nat × δ

/-- `FILE`. `buffer` has `_buffer_size` bytes, and `written` is the flag
`__DANCY_FILE_WRITTEN_BYTES`. -/
structure Stream (δ : Type) where
  fd : δ
  (error eof : Bool)
  ungetc : Option UInt8
  mode : OpenMode
  buffering : Buffering
  written : Bool
  (bufferStart bufferEnd : Nat)
  buffer : List UInt8

/-- `n` bytes of a buffer, from `i` on. -/
def bytesAt (buffer : List UInt8) (i n : Nat) : List UInt8 :=
  (range' i n).map (buffer.getD · 0)

section

variable {δ : Type} (K : Calls δ) (s : Stream δ)

/-! ## Reading -/

def mayRead : Bool :=
  s.mode ≠ .O_WRONLY && !((s.bufferStart ≠ 0 || s.bufferEnd ≠ 0) && s.written)

/-- The buffer is filled; `false` is for an error or the end of the file. -/
def refill : Bool × Stream δ :=
  if s.buffer.length = 0 then (false, { s with error := true })
  else
    match K.read s.fd s.buffer.length with
    | (none, fd) => (false, { s with fd := fd, error := true })
    | (some [], fd) => (false, { s with fd := fd, eof := true })
    | (some (b :: bs), fd) =>
      (true, { s with
        fd := fd
        written := false
        bufferStart := 0
        bufferEnd := (b :: bs).length
        buffer := b :: bs ++ s.buffer.drop (b :: bs).length })

/-- The byte at `_buffer_start`. -/
def takeByte : UInt8 × Stream δ :=
  (s.buffer.getD s.bufferStart 0, { s with bufferStart := s.bufferStart + 1 })

/-- `internal_fgetc` with a buffer. -/
def fgetcBuffered : Option UInt8 × Stream δ :=
  if s.bufferStart ≥ s.bufferEnd then
    match refill K s with
    | (false, s) => (none, s)
    | (true, s) => (some (takeByte s).1, (takeByte s).2)
  else (some (takeByte s).1, (takeByte s).2)

/-- `internal_fgetc` without a buffer. -/
def fgetcDirect : Option UInt8 × Stream δ :=
  match K.read s.fd 1 with
  | (none, fd) => (none, { s with fd := fd, error := true })
  | (some [], fd) => (none, { s with fd := fd, eof := true })
  | (some (b :: _), fd) => (some b, { s with fd := fd })

/-- `fgetc`; `none` is `EOF`. -/
def fgetc : Option UInt8 × Stream δ :=
  if mayRead s = false then (none, { s with error := true })
  else
    match s.ungetc with
    | some c => (some c, { s with ungetc := none })
    | none => if s.buffering = .IONBF then fgetcDirect K s else fgetcBuffered K s

/-- The byte that was pushed back, if there is room. -/
def takeUngetc (left : Nat) : List UInt8 × Stream δ :=
  match s.ungetc with
  | none => ([], s)
  | some c => if left = 0 then ([], s) else ([c], { s with ungetc := none })

/-- The inner loop of `my_read`: bytes of the buffer, as far as they go. -/
def takeBytes (left : Nat) : List UInt8 × Stream δ :=
  (bytesAt s.buffer s.bufferStart (min left (s.bufferEnd - s.bufferStart)),
    { s with bufferStart := s.bufferStart + min left (s.bufferEnd - s.bufferStart) })

/-- The loop of `my_read` with a buffer; `left` bytes are missing. Each round
but the last one gives a byte. -/
def readBuffered : (fuel : Nat) → (left : Nat) → Stream δ → List UInt8 × Stream δ
  | 0, _, s => ([], s)
  | fuel + 1, left, s =>
    let (full, s) := if s.bufferStart ≥ s.bufferEnd then refill K s else (true, s)
    if full = false then ([], s)
    else
      let front := takeUngetc s left
      let bytes := takeBytes front.2 (left - front.1.length)
      let left := left - front.1.length - bytes.1.length
      if left = 0 then (front.1 ++ bytes.1, bytes.2)
      else
        let rest := readBuffered fuel left bytes.2
        (front.1 ++ bytes.1 ++ rest.1, rest.2)

/-- The flags after the last `read` without a buffer. -/
def readEnd (r : Option (List UInt8) × δ) : List UInt8 × Stream δ :=
  match r with
  | (none, fd) => ([], { s with fd := fd, error := true })
  | (some [], fd) => ([], { s with fd := fd, eof := true })
  | (some (b :: bs), fd) => (b :: bs, { s with fd := fd })

/-- `my_read` without a buffer, after the byte that was pushed back: a second
`read` follows a short one. -/
def readDirect (size : Nat) : List UInt8 × Stream δ :=
  match K.read s.fd size with
  | (some (b :: bs), fd) =>
    if (b :: bs).length < size then
      let rest := readEnd s (K.read fd (size - (b :: bs).length))
      (b :: bs ++ rest.1, rest.2)
    else readEnd s (some (b :: bs), fd)
  | r => readEnd s r

/-- `my_read`, for at least one byte. -/
def myRead (size : Nat) : List UInt8 × Stream δ :=
  if mayRead s = false then ([], { s with error := true })
  else if s.buffering = .IONBF then
    let front := takeUngetc s size
    if size - front.1.length = 0 then front
    else
      let rest := readDirect K front.2 (size - front.1.length)
      (front.1 ++ rest.1, rest.2)
  else readBuffered K (size + 1) size s

/-- `fread`: the number of elements, and the bytes that are stored. -/
def fread (size nmemb : Nat) : Nat × List UInt8 × Stream δ :=
  if size = 0 ∨ nmemb = 0 then (0, [], s)
  else
    let total := size * nmemb % 2 ^ 64
    let total := if total / nmemb ≠ size then 2 ^ 64 - 1 else total
    let r := myRead K s total
    (r.1.length / size, r.1, r.2)

/-- `ungetc`; the result is the byte, or `EOF`. -/
def ungetc (c : Int) : Option UInt8 × Stream δ :=
  match s.ungetc with
  | some _ => (none, s)
  | none =>
    let b := UInt8.ofNat (c % 256).toNat
    (some b, { s with ungetc := some b })

/-! ## Writing -/

/-- `INTERNAL_FFLUSH_RETRY_COUNT`. -/
def retryCount : Nat := 8

/-- `write` is called until it takes a byte, as often as the counter allows. -/
def writeSome : (retries : Nat) → δ → List UInt8 → Option Nat × δ
  | 0, fd, _ => (none, fd)
  | retries + 1, fd, bytes =>
    match K.write fd bytes with
    | (some (w + 1), fd) => (some (w + 1), fd)
    | (_, fd) => writeSome retries fd bytes

/-- The bytes between `_buffer_start` and `_buffer_end`. -/
def pending : List UInt8 := bytesAt s.buffer s.bufferStart (s.bufferEnd - s.bufferStart)

/-- The loop of `__dancy_internal_fflush`, which takes a byte in each round. -/
def flushLoop : (rounds : Nat) → Stream δ → Bool × Stream δ
  | 0, s => (true, s)
  | rounds + 1, s =>
    if s.bufferStart < s.bufferEnd then
      match writeSome K retryCount s.fd (pending s) with
      | (none, fd) => (false, { s with fd := fd, error := true })
      | (some w, fd) => flushLoop rounds { s with fd := fd, bufferStart := s.bufferStart + w }
    else (true, s)

/-- `__dancy_internal_fflush`; `false` is `EOF`. -/
def internalFflush : Bool × Stream δ :=
  if s.written = false then (true, s)
  else
    match flushLoop K (s.bufferEnd - s.bufferStart) s with
    | (false, s) => (false, s)
    | (true, s) => (true, { s with written := false, bufferStart := 0, bufferEnd := 0 })

def mayWrite : Bool :=
  s.mode ≠ .O_RDONLY && !((s.bufferStart ≠ 0 || s.bufferEnd ≠ 0) && !s.written)

def store (c : UInt8) : Stream δ :=
  { s with
    buffer := s.buffer.set s.bufferEnd c
    bufferEnd := s.bufferEnd + 1
    written := true }

/-- The flush after a line, and the one of a full buffer. -/
def flushLine (c : UInt8) : Bool × Stream δ :=
  if s.buffering = .IOLBF ∧ c = 10 then internalFflush K s else (true, s)

def flushFull : Bool × Stream δ :=
  if s.bufferEnd ≥ s.buffer.length then internalFflush K s else (true, s)

/-- A byte is stored. The first result is whether there was room, the second
one whether all is well. -/
def putBuffered (c : UInt8) : Bool × Bool × Stream δ :=
  if s.bufferEnd ≥ s.buffer.length then (false, false, { s with error := true })
  else
    match flushLine K (store s c) c with
    | (false, s) => (true, false, s)
    | (true, s) => (true, flushFull K s)

/-- `fputc`; `false` is `EOF`. -/
def fputc (c : UInt8) : Bool × Stream δ :=
  if mayWrite s = false then (false, { s with error := true })
  else if s.buffering = .IONBF then
    match K.write s.fd [c] with
    | (some (_ + 1), fd) => (true, { s with fd := fd })
    | (_, fd) => (false, { s with fd := fd, error := true })
  else (putBuffered K s c).2

/-- The loop of `my_write` with a buffer: how many bytes are stored. -/
def writeBuffered : List UInt8 → Stream δ → Nat × Stream δ
  | [], s => (0, s)
  | c :: bytes, s =>
    match putBuffered K s c with
    | (false, _, s) => (0, s)
    | (true, false, s) => (1, { s with error := true })
    | (true, true, s) => ((writeBuffered bytes s).1 + 1, (writeBuffered bytes s).2)

/-- `fwrite` of bytes. -/
def fwrite (bytes : List UInt8) : Nat × Stream δ :=
  if bytes = [] then (0, s)
  else if mayWrite s = false then (0, { s with error := true })
  else if s.buffering = .IONBF then
    match K.write s.fd bytes with
    | (none, fd) => (0, { s with fd := fd, error := true })
    | (some w, fd) => (w, { s with fd := fd, error := s.error || w < bytes.length })
  else writeBuffered K bytes s

/-! ## The position -/

def llongMax : Int := 2 ^ 63 - 1

def reposition (offset : Int) (whence : Whence) : Bool × Stream δ :=
  match internalFflush K s with
  | (false, s) => (false, s)
  | (true, s) =>
    match K.lseek s.fd offset whence with
    | (none, fd) => (false, { s with fd := fd })
    | (some _, fd) =>
      (true, { s with
        fd := fd
        eof := false
        ungetc := none
        written := false
        bufferStart := 0
        bufferEnd := 0 })

/-- `extra`: the byte that was pushed back. -/
def extra : Nat := if s.ungetc.isSome then 1 else 0

/-- `fseeko`; `false` is `-1`. -/
def fseeko (offset : Int) (whence : Whence) : Bool × Stream δ :=
  match whence with
  | .SEEK_SET => if offset < 0 then (false, s) else reposition K s offset whence
  | .SEEK_CUR =>
    if s.bufferEnd < s.bufferStart then (false, s)
    else
      let sub : Int := (s.bufferEnd - s.bufferStart : Nat) + extra s
      if offset < -llongMax - 1 + sub then (false, s)
      else reposition K s (offset - sub) whence
  | .SEEK_END => reposition K s offset whence

/-- The position, from the offset of the descriptor. -/
def tellAt (offset : Int) : Option Int :=
  let count : Int := (s.bufferEnd - s.bufferStart : Nat)
  if s.bufferEnd < s.bufferStart then none
  else if s.written then if offset > llongMax - count then none else some (offset + count)
  else if offset - (count + extra s) < 0 then some 0
  else some (offset - (count + extra s))

/-- `ftello`; `none` is `-1`. -/
def ftello : Option Int × Stream δ :=
  match K.lseek s.fd 0 .SEEK_CUR with
  | (none, fd) => (none, { s with fd := fd })
  | (some offset, fd) => (tellAt s offset, { s with fd := fd })

end

variable (buffer : List UInt8)

@[simp] theorem bytesAt_length (i n : Nat) :
    (bytesAt buffer i n).length = n := by simp [bytesAt]

@[simp] theorem bytesAt_zero (i : Nat) : bytesAt buffer i 0 = [] := rfl

theorem bytesAt_succ (i n : Nat) :
    bytesAt buffer i (n + 1) = buffer.getD i 0 :: bytesAt buffer (i + 1) n := rfl

theorem bytesAt_add (i m n : Nat) :
    bytesAt buffer i (m + n) = bytesAt buffer i m ++ bytesAt buffer (i + m) n := by
  rw [bytesAt, ← range'_append_1, map_append]
  rfl

theorem bytesAt_append (bs rest : List UInt8) : bytesAt (bs ++ rest) 0 bs.length = bs := by
  refine ext_getElem (by simp) fun i h1 h2 => ?_
  simp [bytesAt, getElem?_append_left h2, getElem?_eq_getElem h2]

end Dancy.Libc
