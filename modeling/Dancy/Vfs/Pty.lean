import Dancy.Lib.Ring
import Dancy.Lib.Run

/-!
# Pseudo terminals (`vfs/pty.c`)

`buffer 0` carries the output to the main side, `buffer 1` the input to the
secondary side; in canonical mode a line is collected in `icanon` first.
Every call holds the lock of the shared data from its beginning to its end.
-/

namespace Dancy.Pty

open Dancy.Lib List Function Option

def ptyBufferSize : Nat := 16384
def ptyIcanonSize : Nat := ptyBufferSize / 4

def iflagInlcr : BitVec 32 := 0x0040
def iflagIgncr : BitVec 32 := 0x0080
def iflagIcrnl : BitVec 32 := 0x0100
def oflagOpost : BitVec 32 := 0x0001
def oflagOnlcr : BitVec 32 := 0x0004
def lflagIsig : BitVec 32 := 0x0001
def lflagIcanon : BitVec 32 := 0x0002
def lflagEcho : BitVec 32 := 0x0008
def lflagEchoe : BitVec 32 := 0x0010
def lflagEchok : BitVec 32 := 0x0020
def lflagTostop : BitVec 32 := 0x0100

def vintr : Nat := 0
def vquit : Nat := 1
def verase : Nat := 2
def vkill : Nat := 3
def veof : Nat := 4
def veol : Nat := 11
def vwerase : Nat := 14

/-- `struct __dancy_termios`, without the baud rate flags. -/
structure Termios where
  (cIflag cOflag cLflag : BitVec 32)
  cCc : Nat → UInt8

def has (flags flag : BitVec 32) : Bool := flags &&& flag != 0

structure PtyBuffer where
  event : Bool
  ring : Lib.Ring UInt8

structure Icanon where
  size : Nat
  base : Nat → UInt8

/-- There are two buffers, `0` and `1`. -/
scoped instance twoBuffers : @NeZero Nat Zero.ofOfNat0 2 := ⟨Nat.succ_ne_zero 1⟩

/-- `struct pty_shared_data`. The last three fields are histories that no
function reads: what was put into `buffer 1` by a flush or by itself, what
was taken out of it, and for each flush the room and the length of the
line. -/
structure PtySharedData where
  eof : Bool
  group : Int
  termios : Termios
  buffer : Fin 2 → PtyBuffer
  icanon : Icanon
  (input taken : List UInt8)
  flushes : List (Nat × Nat)

section

variable (s : PtySharedData)

def PtySharedData.isIcanon : Bool := has s.termios.cLflag lflagIcanon

def bufferState (i : Fin 2) : Nat :=
  let r := (s.buffer i).ring
  if r.stop < r.start then ptyBufferSize + r.stop - r.start else r.stop - r.start

/-- `read_buffer`; `none` is the value `-1`. -/
def readBuffer (i : Fin 2) : Option UInt8 × PtySharedData :=
  let b := s.buffer i
  if b.ring.start ≠ b.ring.stop then
    let c := b.ring.base b.ring.start
    (some c, { s with
      buffer := update s.buffer i { b with ring := b.ring.pop ptyBufferSize 0 } })
  else (none, { s with buffer := update s.buffer i { b with event := false } })

/-- `write_buffer`; `false` is the return value `DE_RETRY`. -/
def writeBuffer (i : Fin 2) (c : UInt8) : Bool × PtySharedData :=
  let b := s.buffer i
  if b.ring.start = Ring.next ptyBufferSize b.ring.stop then (false, s)
  else
    (true, { s with
      buffer := update s.buffer i
        { event := if b.ring.start = b.ring.stop then true else b.event
          ring := b.ring.push ptyBufferSize c } })

def writeByteSecondary (c : UInt8) : Bool × PtySharedData :=
  if !has s.termios.cOflag oflagOpost then writeBuffer s 0 c
  else if c = 10 ∧ has s.termios.cOflag oflagOnlcr then
    if bufferState s 0 ≥ ptyBufferSize - 2 then (false, s)
    else (true, (writeBuffer (writeBuffer s 0 13).2 0 10).2)
  else writeBuffer s 0 c

def writeByteMain (c : UInt8) : Bool × PtySharedData := writeBuffer s 1 c

def echoBytes (cs : List UInt8) : PtySharedData :=
  cs.foldl (fun s c => (writeBuffer s 0 c).2) s

def shown (c : UInt8) : List UInt8 :=
  if c ≤ 0x1F then [94, 64 + c] else if c = 0x7F then [94, 63] else [c]

def writeEchoMain (c : UInt8) : PtySharedData :=
  if c = 10 ∧ s.isIcanon then
    if has s.termios.cOflag oflagOpost ∧ has s.termios.cOflag oflagOnlcr then echoBytes s [13, 10]
    else echoBytes s [10]
  else echoBytes s (shown c)

/-- The inner loop of `write_erase_main`: the bytes of one character. -/
def eraseBytes (base : Nat → UInt8) : Nat → UInt8 → Nat × UInt8
  | 0, ic => (0, ic)
  | size + 1, ic =>
    if ic &&& 0xC0 = 0x80 then eraseBytes base size (base size) else (size + 1, ic)

def eraseEcho (c ic : UInt8) (eraseCharacter : Bool) : List UInt8 :=
  if eraseCharacter then
    (if ic ≤ 0x1F ∨ ic = 0x7F then [8, 32, 8] else []) ++ [8, 32, 8]
  else shown c

/-- The outer loop of `write_erase_main`. Each round takes at least one
byte, so `size` rounds are enough. -/
def eraseLoop (c : UInt8) (word : Int) (eraseCharacter : Bool) :
    Nat → PtySharedData → Bool → Bool → PtySharedData
  | 0, s, _, _ => s
  | rounds + 1, s, echo, wordState =>
    if s.icanon.size = 0 then s
    else
      let r := eraseBytes s.icanon.base (s.icanon.size - 1) (s.icanon.base (s.icanon.size - 1))
      let s := { s with icanon := { s.icanon with size := r.1 } }
      let wordState := wordState || (r.2 != 0x09 && r.2 != 0x20)
      let s := if echo then echoBytes s (eraseEcho c r.2 eraseCharacter) else s
      if word = 0 then s
      else
        let before := s.icanon.base (s.icanon.size - 1)
        if word > 0 ∧ s.icanon.size > 0 ∧ wordState ∧ (before = 0x09 ∨ before = 0x20) then s
        else eraseLoop c word eraseCharacter rounds s (echo && eraseCharacter) wordState

def writeEraseMain (c : UInt8) (word : Int) : PtySharedData :=
  let lflag := s.termios.cLflag
  let eraseCharacter :=
    (has lflag lflagEchoe && decide (word ≥ 0)) || (has lflag lflagEchok && decide (word < 0))
  eraseLoop c word eraseCharacter s.icanon.size s (has lflag lflagEcho) false

/-! ## Lines -/

/-- The flush loops: the line goes to `buffer 1`, results are ignored. -/
def flushLine : PtySharedData :=
  let line := (range s.icanon.size).map s.icanon.base
  let room := ptyBufferSize - 1 - bufferState s 1
  let t := line.foldl (fun s c => (writeByteMain s c).2) s
  { t with
    icanon := { t.icanon with size := 0 }
    input := s.input ++ line
    flushes := (room, line.length) :: s.flushes }

/-- `p[icanon.size++] = c` -/
def storeByte (c : UInt8) : PtySharedData :=
  { s with
    icanon :=
      { size := s.icanon.size + 1, base := update s.icanon.base s.icanon.size c } }

/-- How the body of the loop of `n_write_main` ends: with the next byte, or
by `break` with the byte counted or not. -/
inductive ByteEnd where
  | next
  | stop
  | retry
deriving DecidableEq

/-- The end of a line: `if (end_of_icanon) { … }`. -/
def endLine (c : UInt8) : PtySharedData :=
  let s := if s.icanon.base (s.icanon.size - 1) ≠ c then storeByte s c else s
  flushLine s

def eraseByte (c : UInt8) (word : Int) : PtySharedData :=
  writeEraseMain { s with icanon := { s.icanon with size := s.icanon.size - 1 } } c word

/-- Whether `c` is the control character `i`; `0` is none. -/
def isCc (t : Termios) (i : Nat) (c : UInt8) : Bool := c != 0 && c == t.cCc i

/-- A byte in canonical mode, after the state of `buffer 1` was checked. -/
def canonByte (c : UInt8) (echo : Bool) : PtySharedData × ByteEnd :=
  let t := s.termios
  let s := if s.icanon.size < ptyIcanonSize - 1 then storeByte s c else s
  let echoed := if echo then writeEchoMain s c else s
  if c = 10 then (endLine echoed c, .next)
  else if isCc t veof c then
    if s.icanon.size = 1 then
      ({ s with icanon := { s.icanon with size := 0 }, eof := true }, .stop)
    else (endLine s c, .next)
  else if isCc t verase c then (eraseByte s c 0, .next)
  else if isCc t vkill c then (eraseByte s c (-1), .next)
  else if isCc t vwerase c then (eraseByte s c 1, .next)
  else if isCc t veol c then (endLine echoed c, .next)
  else (echoed, .next)

/-- The conversions of `c_iflag`; `none` is an ignored carriage return. -/
def translate (iflag : BitVec 32) (c : UInt8) : Option UInt8 :=
  if c = 10 then some (if has iflag iflagInlcr then 13 else c)
  else if c = 13 then
    if has iflag iflagIgncr then none else some (if has iflag iflagIcrnl then 10 else c)
  else some c

/-- Whether a byte sends `SIGINT` or `SIGQUIT`. -/
def isSignal (t : Termios) (c : UInt8) : Bool :=
  has t.cLflag lflagIsig && (isCc t vintr c || isCc t vquit c)

/-- The body of the loop of `n_write_main`. -/
def writeMainByte (x : UInt8) : PtySharedData × ByteEnd :=
  let echo := has s.termios.cLflag lflagEcho
  match translate s.termios.cIflag x with
  | none => (s, .next)
  | some c =>
    if isSignal s.termios c then
      let s := if echo then writeEchoMain s c else s
      ({ s with icanon := { s.icanon with size := 0 } }, .next)
    else if s.isIcanon then
      if bufferState s 1 > ptyIcanonSize then (s, .retry) else canonByte s c echo
    else
      let s := if echo then writeEchoMain s c else s
      match writeByteMain s c with
      | (false, s) => (s, .retry)
      | (true, s) => ({ s with input := s.input ++ [c] }, .next)

def writeMainLoop : List UInt8 → PtySharedData → Nat → PtySharedData × Nat
  | [], s, size => (s, size)
  | x :: xs, s, size =>
    match writeMainByte s x with
    | (s, .next) => writeMainLoop xs s (size + 1)
    | (s, .stop) => (s, size + 1)
    | (s, .retry) => (s, size)

/-! ## The calls -/

def signalEvent (i : Fin 2) : PtySharedData :=
  { s with buffer := update s.buffer i { s.buffer i with event := true } }

def nWriteMain (buffer : List UInt8) : PtySharedData × Nat :=
  let r := writeMainLoop buffer s 0
  (if r.2 ≠ 0 then signalEvent r.1 1 else r.1, r.2)

def readMainLoop : Nat → PtySharedData → List UInt8 → PtySharedData × List UInt8
  | 0, s, bs => (s, bs)
  | left + 1, s, bs =>
    match readBuffer s 0 with
    | (none, s) => (s, bs)
    | (some c, s) => readMainLoop left s (bs ++ [c])

def nReadMain (requestedSize : Nat) : PtySharedData × List UInt8 :=
  readMainLoop requestedSize s []

/-- The loop of `n_read_secondary`. A byte that was read is taken, also the
end-of-file character that is not handed out. -/
def readSecondaryLoop (icanon : Bool) (veof : UInt8) :
    Nat → PtySharedData → List UInt8 → PtySharedData × List UInt8
  | 0, s, bs => (s, bs)
  | left + 1, s, bs =>
    match readBuffer s 1 with
    | (none, s) => ({ s with eof := false }, bs)
    | (some c, s) =>
      let s := { s with taken := s.taken ++ [c] }
      if c ≠ 0 ∧ c = veof ∧ icanon then (s, bs)
      else if c = 10 then (s, bs ++ [c])
      else readSecondaryLoop icanon veof left s (bs ++ [c])

/-- `n_read_secondary` of a task in the group `idGroup`. -/
def nReadSecondary (idGroup : Int) (requestedSize : Nat) :
    PtySharedData × List UInt8 :=
  let requestedSize := if s.group > 0 ∧ s.group ≠ idGroup then 0 else requestedSize
  readSecondaryLoop s.isIcanon (s.termios.cCc veof) requestedSize s []

def writeSecondaryLoop : List UInt8 → PtySharedData → Nat → PtySharedData × Nat
  | [], s, size => (s, size)
  | x :: xs, s, size =>
    match writeByteSecondary s x with
    | (false, s) => (s, size)
    | (true, s) => writeSecondaryLoop xs s (size + 1)

def nWriteSecondary (idGroup : Int) (buffer : List UInt8) :
    PtySharedData × Nat :=
  let stopped := s.group > 0 ∧ has s.termios.cLflag lflagTostop ∧ s.group ≠ idGroup ∧ idGroup > 1
  let r := writeSecondaryLoop (if stopped then [] else buffer) s 0
  (if r.2 ≠ 0 then signalEvent r.1 0 else r.1, r.2)

/-- `n_ioctl` with `TCSETS`, `TCSETSW` or `TCSETSF`. -/
def tcsets (t : Termios) : PtySharedData :=
  let s := if !has t.cLflag lflagIcanon then flushLine s else s
  { s with termios := t }

/-- `n_ioctl` with `TIOCSPGRP`, when the group is accepted. -/
def tiocspgrp (group : Int) : PtySharedData := { s with group := group }

end

/-- The shared data that `pty_create` makes. -/
def ptyCreate (t : Termios) : PtySharedData where
  eof := false
  group := 0
  termios := t
  buffer := fun _ => ⟨false, ⟨fun _ => 0, 0, 0⟩⟩
  icanon := ⟨0, fun _ => 0⟩
  input := []
  taken := []
  flushes := []

variable {s s' : PtySharedData} {c : UInt8} {max : Nat}

/-- The invariant, with a bound on the line buffer. -/
structure PtyInv (max : Nat) (s : PtySharedData) : Prop where
  wf : ∀ i, (s.buffer i).ring.Wf ptyBufferSize
  size_le : s.icanon.size ≤ max
  canonical : 0 < s.icanon.size → s.isIcanon = true
  low : 0 < s.icanon.size → (s.buffer 1).ring.count ptyBufferSize ≤ ptyIcanonSize
  fits : ∀ f ∈ s.flushes, f.2 ≤ f.1 ∧ f.2 ≤ ptyIcanonSize
  fifo : s.input = s.taken ++ (s.buffer 1).ring.contents ptyBufferSize

structure Kept (s s' : PtySharedData) : Prop where
  output : (s.buffer 0).ring.Wf ptyBufferSize → (s'.buffer 0).ring.Wf ptyBufferSize
  buffer : s'.buffer 1 = s.buffer 1
  termios : s'.termios = s.termios
  size : s'.icanon.size ≤ s.icanon.size
  input : s'.input = s.input
  taken : s'.taken = s.taken
  flushes : s'.flushes = s.flushes

theorem Kept.refl (s : PtySharedData) : Kept s s :=
  ⟨fun h => h, rfl, rfl, le_rfl, rfl, rfl, rfl⟩

theorem Kept.trans {s'' : PtySharedData} (h : Kept s s') (h' : Kept s' s'') : Kept s s'' :=
  ⟨fun hw => h'.output (h.output hw), h'.buffer.trans h.buffer, h'.termios.trans h.termios,
    le_trans h'.size h.size, h'.input.trans h.input, h'.taken.trans h.taken,
    h'.flushes.trans h.flushes⟩

theorem Kept.isIcanon (h : Kept s s') : s'.isIcanon = s.isIcanon := by
  unfold PtySharedData.isIcanon
  rw [h.termios]

theorem PtyInv.kept (h : PtyInv max s) (hk : Kept s s') : PtyInv max s' := by
  have hpos : 0 < s'.icanon.size → 0 < s.icanon.size := fun h0 => lt_of_lt_of_le h0 hk.size
  refine ⟨fun i => ?_, le_trans hk.size h.size_le, fun h0 => ?_, fun h0 => ?_, ?_, ?_⟩
  · match i with
    | 0 => exact hk.output (h.wf 0)
    | 1 =>
      rw [hk.buffer]
      exact h.wf 1
  · rw [hk.isIcanon]
    exact h.canonical (hpos h0)
  · rw [hk.buffer]
    exact h.low (hpos h0)
  · rw [hk.flushes]
    exact h.fits
  · rw [hk.input, hk.taken, hk.buffer]
    exact h.fifo

/-! ## Output -/

theorem writeBuffer_output (s : PtySharedData) (c : UInt8) : Kept s (writeBuffer s 0 c).2 := by
  unfold writeBuffer
  simp only
  split
  · exact .refl s
  · refine ⟨fun hw => ?_, rfl, rfl, le_rfl, rfl, rfl, rfl⟩
    exact hw.push c

theorem echoBytes_kept (cs : List UInt8) : ∀ s : PtySharedData, Kept s (echoBytes s cs) := by
  induction cs with
  | nil => exact fun s => .refl s
  | cons c cs ih => exact fun s => (writeBuffer_output s c).trans (ih _)

theorem writeEchoMain_kept (s : PtySharedData) (c : UInt8) : Kept s (writeEchoMain s c) := by
  unfold writeEchoMain
  split
  · split
    all_goals exact echoBytes_kept _ s
  · exact echoBytes_kept _ s

variable (base : Nat → UInt8)

theorem eraseBytes_le : ∀ (size : Nat) (ic : UInt8),
    (eraseBytes base size ic).1 ≤ size := by
  intro size
  induction size with
  | zero => exact fun ic => le_refl 0
  | succ size ih =>
    intro ic
    rw [eraseBytes]
    split
    · exact le_trans (ih _) (Nat.le_succ _)
    · omega

theorem eraseLoop_kept (c : UInt8) (word : Int) (eraseCharacter : Bool) :
    ∀ (rounds : Nat) (s : PtySharedData) (echo wordState : Bool),
      Kept s (eraseLoop c word eraseCharacter rounds s echo wordState) := by
  intro rounds
  induction rounds with
  | zero => exact fun s _ _ => .refl s
  | succ rounds ih =>
    intro s echo wordState
    unfold eraseLoop
    split
    · exact .refl s
    obtain ⟨r, hr⟩ : ∃ r, r = eraseBytes s.icanon.base (s.icanon.size - 1)
      (s.icanon.base (s.icanon.size - 1)) := ⟨_, rfl⟩
    have hle := eraseBytes_le s.icanon.base (s.icanon.size - 1)
      (s.icanon.base (s.icanon.size - 1))
    rw [← hr] at hle
    obtain ⟨s1, hs1⟩ : ∃ s1 : PtySharedData,
      s1 = { s with icanon := { s.icanon with size := r.1 } } := ⟨_, rfl⟩
    have h1 : Kept s s1 := by
      rw [hs1]
      exact ⟨fun h => h, rfl, rfl, le_trans hle (Nat.sub_le _ _), rfl, rfl, rfl⟩
    obtain ⟨s2, hs2⟩ : ∃ s2, s2 =
      if echo then echoBytes s1 (eraseEcho c r.2 eraseCharacter) else s1 := ⟨_, rfl⟩
    have h2 : Kept s s2 := by
      rw [hs2]
      split
      · exact h1.trans (echoBytes_kept _ s1)
      · exact h1
    simp only [← hr, ← hs1, ← hs2]
    split
    · exact h2
    · split
      · exact h2
      · exact h2.trans (ih _ _ _)

theorem eraseByte_kept (s : PtySharedData) (c : UInt8) (word : Int) :
    Kept s (eraseByte s c word) := by
  have hless : Kept s { s with icanon := { s.icanon with size := s.icanon.size - 1 } } :=
    ⟨fun h => h, rfl, rfl, Nat.sub_le _ _, rfl, rfl, rfl⟩
  exact hless.trans (eraseLoop_kept _ _ _ _ _ _ _)

theorem bufferState_eq {i : Fin 2} (h : (s.buffer i).ring.Wf ptyBufferSize) :
    bufferState s i = (s.buffer i).ring.count ptyBufferSize := by
  rw [Ring.count_eq h]
  unfold bufferState
  simp only
  split <;> split <;> omega

theorem foldl_writeByteMain (line : List UInt8) : ∀ s : PtySharedData,
    (s.buffer 1).ring.Wf ptyBufferSize →
    (s.buffer 1).ring.count ptyBufferSize + line.length < ptyBufferSize →
    let t := line.foldl (fun s c => (writeByteMain s c).2) s
    (t.buffer 1).ring.Wf ptyBufferSize ∧ t.buffer 0 = s.buffer 0 ∧
      (t.buffer 1).ring.contents ptyBufferSize =
        (s.buffer 1).ring.contents ptyBufferSize ++ line ∧
      t.icanon = s.icanon ∧ t.termios = s.termios ∧ t.taken = s.taken := by
  induction line with
  | nil => exact fun s h _ => ⟨h, rfl, (append_nil _).symm, rfl, rfl, rfl⟩
  | cons c line ih =>
    intro s h hroom
    rw [length_cons] at hroom
    have hfull : (s.buffer 1).ring.start ≠ Ring.next ptyBufferSize (s.buffer 1).ring.stop := by
      rw [ne_eq, Ring.full_iff h]
      omega
    have hring : ((writeByteMain s c).2.buffer 1).ring =
        (s.buffer 1).ring.push ptyBufferSize c := by
      unfold writeByteMain writeBuffer
      simp only [hfull, if_false, Function.update_self]
    have hother : (writeByteMain s c).2.buffer 0 = s.buffer 0 ∧
        (writeByteMain s c).2.icanon = s.icanon ∧ (writeByteMain s c).2.termios = s.termios ∧
        (writeByteMain s c).2.taken = s.taken := by
      simp [writeByteMain, writeBuffer, hfull]
    have hcount := Ring.count_push h hfull c
    obtain ⟨h1, h2, h3, h4, h5, h6⟩ := ih (writeByteMain s c).2 (hring ▸ h.push c)
      (by rw [hring, hcount]; omega)
    obtain ⟨g1, g2, g3, g4⟩ := hother
    refine ⟨h1, h2.trans g1, ?_, h4.trans g2, h5.trans g3, h6.trans g4⟩
    rw [foldl_cons, h3, hring, Ring.contents_push h hfull, append_assoc]
    rfl

theorem PtyInv.flushLine (h : PtyInv ptyIcanonSize s) :
    PtyInv 0 (flushLine s) ∧ (Dancy.Pty.flushLine s).termios = s.termios := by
  have hlt := Ring.count_lt (h.wf 1)
  have hroom : (s.buffer 1).ring.count ptyBufferSize + s.icanon.size < ptyBufferSize := by
    rcases Nat.eq_zero_or_pos s.icanon.size with h0 | hpos
    · omega
    · have hlow := h.low hpos
      have hsize := h.size_le
      unfold ptyIcanonSize ptyBufferSize at *
      omega
  obtain ⟨line, hline⟩ : ∃ line, line = (range s.icanon.size).map s.icanon.base := ⟨_, rfl⟩
  have hlen : line.length = s.icanon.size := by simp [hline]
  obtain ⟨h1, h2, h3, h4, h5, h6⟩ := foldl_writeByteMain line s (h.wf 1) (by rw [hlen]; exact hroom)
  unfold Dancy.Pty.flushLine
  simp only [← hline]
  refine ⟨⟨fun i => ?_, le_refl 0, fun h0 => absurd h0 (lt_irrefl 0),
    fun h0 => absurd h0 (lt_irrefl 0), fun f hf => ?_, ?_⟩, h5⟩
  · match i with
    | 0 =>
      rw [h2]
      exact h.wf 0
    | 1 => exact h1
  · rcases mem_cons.mp hf with rfl | hf
    · rw [bufferState_eq (h.wf 1), hlen]
      exact ⟨by omega, h.size_le⟩
    · exact h.fits f hf
  · rw [h6, h3, h.fifo, append_assoc]

theorem PtyInv.mono {max' : Nat} (h : PtyInv max s) (hle : max ≤ max') : PtyInv max' s :=
  ⟨h.wf, le_trans h.size_le hle, h.canonical, h.low, h.fits, h.fifo⟩

/-! ## A byte -/

theorem PtyInv.storeByte (h : PtyInv max s) (hcanon : s.isIcanon = true)
    (hlow : (s.buffer 1).ring.count ptyBufferSize ≤ ptyIcanonSize) (c : UInt8) :
    PtyInv (max + 1) (storeByte s c) :=
  ⟨h.wf, Nat.succ_le_succ h.size_le, fun _ => hcanon, fun _ => hlow, h.fits, h.fifo⟩

/-- What canonical mode relies on between its check and the flush. -/
structure Collecting (s : PtySharedData) : Prop where
  inv : PtyInv (ptyIcanonSize - 1) s
  canonical : s.isIcanon = true
  low : (s.buffer 1).ring.count ptyBufferSize ≤ ptyIcanonSize

theorem Collecting.kept (h : Collecting s) (hk : Kept s s') : Collecting s' :=
  ⟨h.inv.kept hk, hk.isIcanon.trans h.canonical, by rw [hk.buffer]; exact h.low⟩

theorem Collecting.endLine (h : Collecting s) (c : UInt8) :
    PtyInv (ptyIcanonSize - 1) (endLine s c) := by
  unfold Dancy.Pty.endLine
  split
  · exact ((h.inv.storeByte h.canonical h.low c).flushLine).1.mono (Nat.zero_le _)
  · exact ((h.inv.mono (Nat.sub_le _ _)).flushLine).1.mono (Nat.zero_le _)

theorem PtyInv.emptyLine (h : PtyInv max s) :
    PtyInv max { s with icanon := { s.icanon with size := 0 } } :=
  h.kept ⟨fun hw => hw, rfl, rfl, Nat.zero_le _, rfl, rfl, rfl⟩

theorem Collecting.canonByte (h : Collecting s) (c : UInt8) (echo : Bool) :
    PtyInv (ptyIcanonSize - 1) (canonByte s c echo).1 := by
  obtain ⟨s1, hs1⟩ : ∃ s1, s1 =
    if s.icanon.size < ptyIcanonSize - 1 then storeByte s c else s := ⟨_, rfl⟩
  have h1 : Collecting s1 := by
    rw [hs1]
    split
    · rename_i hlt
      refine ⟨?_, h.canonical, h.low⟩
      exact ⟨h.inv.wf, hlt, fun _ => h.canonical, fun _ => h.low, h.inv.fits, h.inv.fifo⟩
    · exact h
  have h2 : Collecting (if echo then writeEchoMain s1 c else s1) := by
    split
    · exact h1.kept (writeEchoMain_kept s1 c)
    · exact h1
  unfold Dancy.Pty.canonByte
  simp only [← hs1]
  split
  · exact h2.endLine c
  split
  · split
    · -- an end of file on an empty line
      exact ⟨h1.inv.emptyLine.wf, Nat.zero_le _, fun h0 => absurd h0 (Nat.lt_irrefl 0),
        fun h0 => absurd h0 (lt_irrefl 0), h1.inv.fits, h1.inv.fifo⟩
    · exact h1.endLine c
  split
  · exact h1.inv.kept (eraseByte_kept s1 c 0)
  split
  · exact h1.inv.kept (eraseByte_kept s1 c (-1))
  split
  · exact h1.inv.kept (eraseByte_kept s1 c 1)
  split
  · exact h2.endLine c
  · exact h2.inv

theorem PtyInv.writeByteMain (h : PtyInv (ptyIcanonSize - 1) s) (hraw : s.isIcanon = false)
    (c : UInt8) :
    ((writeByteMain s c).1 = false → PtyInv (ptyIcanonSize - 1) (writeByteMain s c).2) ∧
    ((Dancy.Pty.writeByteMain s c).1 = true → PtyInv (ptyIcanonSize - 1)
      { (Dancy.Pty.writeByteMain s c).2 with
        input := (Dancy.Pty.writeByteMain s c).2.input ++ [c] }) := by
  have hempty : ¬ 0 < s.icanon.size := fun h0 => by
    rw [h.canonical h0] at hraw
    cases hraw
  unfold Dancy.Pty.writeByteMain writeBuffer
  simp only
  split
  · exact ⟨fun _ => h, nofun⟩
  rename_i hfull
  refine ⟨nofun, fun _ => ⟨fun i => ?_, h.size_le, fun h0 => absurd h0 hempty,
    fun h0 => absurd h0 hempty, h.fits, ?_⟩⟩
  · match i with
    | 0 => exact h.wf 0
    | 1 => exact (h.wf 1).push c
  · show s.input ++ [c] = s.taken ++ ((s.buffer 1).ring.push ptyBufferSize c).contents _
    simp [Ring.contents_push (h.wf 1) hfull, h.fifo]

theorem PtyInv.writeMainByte (h : PtyInv (ptyIcanonSize - 1) s) (x : UInt8) :
    PtyInv (ptyIcanonSize - 1) (writeMainByte s x).1 := by
  have hecho : ∀ c, Kept s
      (if has s.termios.cLflag lflagEcho then writeEchoMain s c else s) := by
    intro c
    split
    · exact writeEchoMain_kept s c
    · exact .refl s
  unfold Dancy.Pty.writeMainByte
  simp only
  split
  · exact h
  rename_i c hc
  split
  · exact (h.kept (hecho c)).emptyLine
  split
  · rename_i hcanon
    split
    · exact h
    · rename_i hlow
      rw [bufferState_eq (h.wf 1)] at hlow
      exact Collecting.canonByte ⟨h, hcanon, Nat.le_of_not_lt hlow⟩ c _
  · rename_i hraw
    have hk := hecho c
    obtain ⟨hfail, hdone⟩ := (h.kept hk).writeByteMain
      (by rw [hk.isIcanon]; simpa using hraw) c
    split
    · rename_i s2 heq
      rw [heq] at hfail
      exact hfail rfl
    · rename_i s2 heq
      rw [heq] at hdone
      exact hdone rfl

theorem PtyInv.writeMainLoop (xs : List UInt8) : ∀ {s : PtySharedData} (size : Nat),
    PtyInv (ptyIcanonSize - 1) s → PtyInv (ptyIcanonSize - 1) (writeMainLoop xs s size).1 := by
  induction xs with
  | nil => exact fun _ h => h
  | cons x xs ih =>
    intro s size h
    have hbyte := h.writeMainByte x
    unfold Dancy.Pty.writeMainLoop
    split
    · rename_i s1 heq
      rw [heq] at hbyte
      exact ih _ hbyte
    all_goals
      rename_i heq
      rw [heq] at hbyte
      exact hbyte

/-! ## The calls -/

theorem PtyInv.signalEvent (h : PtyInv max s) (i : Fin 2) : PtyInv max (signalEvent s i) := by
  have hring : ∀ j, ((Dancy.Pty.signalEvent s i).buffer j).ring = (s.buffer j).ring := by
    intro j
    unfold Dancy.Pty.signalEvent
    by_cases hj : j = i
    · subst hj
      simp
    · simp [hj]
  refine ⟨fun j => ?_, h.size_le, h.canonical, fun h0 => ?_, h.fits, ?_⟩
  · rw [hring]
    exact h.wf j
  · rw [hring]
    exact h.low h0
  · rw [hring]
    exact h.fifo

theorem PtyInv.nWriteMain (h : PtyInv (ptyIcanonSize - 1) s) (buffer : List UInt8) :
    PtyInv (ptyIcanonSize - 1) (nWriteMain s buffer).1 := by
  have hloop := PtyInv.writeMainLoop buffer 0 h
  unfold Dancy.Pty.nWriteMain
  simp only
  split
  · exact hloop.signalEvent 1
  · exact hloop

theorem readBuffer_output (s : PtySharedData) : Kept s (readBuffer s 0).2 := by
  unfold readBuffer
  simp only
  split
  · refine ⟨fun hw => ?_, rfl, rfl, le_rfl, rfl, rfl, rfl⟩
    exact hw.pop 0
  · refine ⟨fun hw => ?_, rfl, rfl, le_rfl, rfl, rfl, rfl⟩
    exact hw

theorem readMainLoop_kept : ∀ (left : Nat) (s : PtySharedData) (bs : List UInt8),
    Kept s (readMainLoop left s bs).1 := by
  intro left
  induction left with
  | zero => exact fun s _ => .refl s
  | succ left ih =>
    intro s bs
    have hread := readBuffer_output s
    unfold readMainLoop
    split
    · rename_i s1 heq
      rw [heq] at hread
      exact hread
    · rename_i c s1 heq
      rw [heq] at hread
      exact hread.trans (ih _ _)

theorem PtyInv.readBuffer (h : PtyInv max s) :
    ((readBuffer s 1).1 = none → PtyInv max (readBuffer s 1).2) ∧
    ∀ c, (Dancy.Pty.readBuffer s 1).1 = some c → PtyInv max
      { (Dancy.Pty.readBuffer s 1).2 with taken := (Dancy.Pty.readBuffer s 1).2.taken ++ [c] } := by
  unfold Dancy.Pty.readBuffer
  simp only
  split
  · rename_i hne
    refine ⟨nofun, fun c hc => ⟨fun i => ?_, h.size_le, h.canonical, fun h0 => ?_, h.fits, ?_⟩⟩
    · match i with
      | 0 => exact h.wf 0
      | 1 => exact (h.wf 1).pop 0
    · have hlow := h.low h0
      rw [Ring.count_pop (h.wf 1) hne 0] at hlow
      exact le_trans (Nat.le_succ _) hlow
    · obtain rfl : (s.buffer 1).ring.base (s.buffer 1).ring.start = c := some.inj hc
      rw [h.fifo, Ring.contents_pop (h.wf 1) hne 0, append_assoc]
      rfl
  · refine ⟨fun _ => ⟨fun i => ?_, h.size_le, h.canonical, h.low, h.fits, h.fifo⟩, nofun⟩
    match i with
    | 0 => exact h.wf 0
    | 1 => exact h.wf 1

theorem PtyInv.readSecondaryLoop (icanon : Bool) (veof : UInt8) :
    ∀ (left : Nat) {s : PtySharedData} (bs : List UInt8), PtyInv max s →
      PtyInv max (readSecondaryLoop icanon veof left s bs).1 := by
  intro left
  induction left with
  | zero => exact fun _ h => h
  | succ left ih =>
    intro s bs h
    obtain ⟨hnone, hsome⟩ := h.readBuffer
    unfold Dancy.Pty.readSecondaryLoop
    split
    · rename_i s1 heq
      rw [heq] at hnone
      exact (hnone rfl).kept ⟨fun hw => hw, rfl, rfl, le_rfl, rfl, rfl, rfl⟩
    rename_i c s1 heq
    rw [heq] at hsome
    have hs1 := hsome c rfl
    split
    · exact hs1
    · split
      · exact hs1
      · exact ih _ hs1

theorem writeByteSecondary_kept (s : PtySharedData) (c : UInt8) :
    Kept s (writeByteSecondary s c).2 := by
  unfold writeByteSecondary
  split
  · exact writeBuffer_output s c
  split
  · split
    · exact .refl s
    · exact (writeBuffer_output s 13).trans (writeBuffer_output _ 10)
  · exact writeBuffer_output s c

theorem writeSecondaryLoop_kept (xs : List UInt8) : ∀ (s : PtySharedData) (size : Nat),
    Kept s (writeSecondaryLoop xs s size).1 := by
  induction xs with
  | nil => exact fun s _ => .refl s
  | cons x xs ih =>
    intro s size
    have hbyte := writeByteSecondary_kept s x
    unfold writeSecondaryLoop
    split
    · rename_i s1 heq
      rw [heq] at hbyte
      exact hbyte
    · rename_i s1 heq
      rw [heq] at hbyte
      exact hbyte.trans (ih _ _)

theorem PtyInv.nWriteSecondary (h : PtyInv max s) (idGroup : Int) (buffer : List UInt8) :
    PtyInv max (nWriteSecondary s idGroup buffer).1 := by
  unfold Dancy.Pty.nWriteSecondary
  simp only
  obtain ⟨xs, hxs⟩ : ∃ xs, xs = if s.group > 0 ∧ has s.termios.cLflag lflagTostop = true ∧
    s.group ≠ idGroup ∧ idGroup > 1 then [] else buffer := ⟨_, rfl⟩
  rw [← hxs]
  have hloop := h.kept (writeSecondaryLoop_kept xs s 0)
  split
  · exact hloop.signalEvent 0
  · exact hloop

theorem PtyInv.tcsets (h : PtyInv (ptyIcanonSize - 1) s) (t : Termios) :
    PtyInv (ptyIcanonSize - 1) (tcsets s t) := by
  unfold Dancy.Pty.tcsets
  split
  · have hflush := ((h.mono (Nat.sub_le _ _)).flushLine).1
    have hempty : ¬ 0 < (Dancy.Pty.flushLine s).icanon.size := not_lt.mpr hflush.size_le
    exact ⟨hflush.wf, Nat.le_trans hflush.size_le (Nat.zero_le _), fun h0 => absurd h0 hempty,
      fun h0 => absurd h0 hempty, hflush.fits, hflush.fifo⟩
  · rename_i hcanon
    exact ⟨h.wf, h.size_le, fun _ => show has t.cLflag lflagIcanon = true by simpa using hcanon,
      h.low, h.fits, h.fifo⟩

/-- The calls of both sides. -/
inductive PtyOp where
  | writeMain (buffer : List UInt8)
  | readMain (requestedSize : Nat)
  | writeSecondary (idGroup : Int) (buffer : List UInt8)
  | readSecondary (idGroup : Int) (requestedSize : Nat)
  | tcsets (t : Termios)
  | tiocspgrp (group : Int)

inductive PtyStep : PtySharedData → PtyOp → PtySharedData → Prop where
  | writeMain (s : PtySharedData) (buffer : List UInt8) :
      PtyStep s (.writeMain buffer) (nWriteMain s buffer).1
  | readMain (s : PtySharedData) (requestedSize : Nat) :
      PtyStep s (.readMain requestedSize) (nReadMain s requestedSize).1
  | writeSecondary (s : PtySharedData) (idGroup : Int) (buffer : List UInt8) :
      PtyStep s (.writeSecondary idGroup buffer) (nWriteSecondary s idGroup buffer).1
  | readSecondary (s : PtySharedData) (idGroup : Int) (requestedSize : Nat) :
      PtyStep s (.readSecondary idGroup requestedSize) (nReadSecondary s idGroup requestedSize).1
  | tcsets (s : PtySharedData) (t : Termios) : PtyStep s (.tcsets t) (tcsets s t)
  | tiocspgrp (s : PtySharedData) (group : Int) :
      PtyStep s (.tiocspgrp group) (tiocspgrp s group)

theorem PtyInv.step {op : PtyOp} (h : PtyInv (ptyIcanonSize - 1) s) (hs : PtyStep s op s') :
    PtyInv (ptyIcanonSize - 1) s' := by
  cases hs with
  | writeMain buffer => exact h.nWriteMain buffer
  | readMain requestedSize => exact h.kept (readMainLoop_kept requestedSize s [])
  | writeSecondary idGroup buffer => exact h.nWriteSecondary idGroup buffer
  | readSecondary idGroup requestedSize => exact PtyInv.readSecondaryLoop _ _ _ [] h
  | tcsets t => exact h.tcsets t
  | tiocspgrp group => exact ⟨h.wf, h.size_le, h.canonical, h.low, h.fits, h.fifo⟩

theorem PtyInv.create (t : Termios) : PtyInv (ptyIcanonSize - 1) (ptyCreate t) := by
  have hwf : ((ptyCreate t).buffer 1).ring.Wf ptyBufferSize :=
    ⟨show 0 < ptyBufferSize by decide, show 0 < ptyBufferSize by decide⟩
  refine ⟨fun _ => hwf, Nat.zero_le _, fun h0 => absurd h0 (Nat.lt_irrefl 0),
    fun h0 => absurd h0 (lt_irrefl 0), fun _ hf => absurd hf not_mem_nil, ?_⟩
  rw [(Ring.contents_eq_nil hwf).mpr rfl]
  rfl

/-- **Line buffering**: the line buffer is never overrun and is empty outside
canonical mode, every flush has found room for its whole line, and what was
put into `buffer 1` is read in order and complete. -/
theorem line_buffer_of_run {t : Termios} {ops : List PtyOp}
    (hrun : Run PtyStep (ptyCreate t) ops s) :
    s.icanon.size ≤ ptyIcanonSize ∧ (0 < s.icanon.size → s.isIcanon = true) ∧
      (∀ f ∈ s.flushes, f.2 ≤ f.1 ∧ f.2 ≤ ptyIcanonSize) ∧
      s.input = s.taken ++ (s.buffer 1).ring.contents ptyBufferSize := by
  have h : PtyInv (ptyIcanonSize - 1) s :=
    hrun.invariant (fun _ _ _ h hs => h.step hs) (.create t)
  exact ⟨le_trans h.size_le (Nat.sub_le _ _), h.canonical, h.fits, h.fifo⟩

/-- A terminal in canonical mode gets a line. -/
theorem line_buffer_of_run_line :
    (nWriteMain (ptyCreate ⟨0, 0, lflagIcanon, fun _ => 0⟩) [104, 105, 10]).1.icanon.size ≤
      ptyIcanonSize :=
  (line_buffer_of_run (.single (.writeMain _ _))).1

/-! ## The line as a stack -/

def stackOf (base : Nat → UInt8) : (size : Nat) → List UInt8
  | 0 => []
  | size + 1 => base size :: stackOf base size

/-- The line that is collected, newest byte first. -/
def PtySharedData.stack (s : PtySharedData) : List UInt8 := stackOf s.icanon.base s.icanon.size

/-- `(c & 0xC0) == 0x80` -/
def isContinuation (c : UInt8) : Bool := c &&& 0xC0 == 0x80

def isBlank (c : UInt8) : Bool := c == 0x09 || c == 0x20

/-- The bytes that the inner loop of `write_erase_main` takes: the last of them
and the rest of the line. -/
def popChar : List UInt8 → UInt8 × List UInt8
  | [] => (0, [])
  | [c] => (c, [])
  | c :: d :: rest => if isContinuation c then popChar (d :: rest) else (c, d :: rest)

/-- The outer loop of `write_erase_main`, with at most this many rounds. -/
def eraseStack (word : Int) : (rounds : Nat) → List UInt8 → (wordState : Bool) → List UInt8
  | 0, st, _ => st
  | rounds + 1, st, wordState =>
    if st = [] then []
    else
      let r := popChar st
      let wordState := wordState || !isBlank r.1
      if word = 0 then r.2
      else if word > 0 ∧ wordState ∧ (r.2.head?.any isBlank) then r.2
      else eraseStack word rounds r.2 wordState

/-- What a byte does to a line: the line goes on, or its bytes are given to
the reader, or the end of the file is. -/
inductive LineEffect where
  | keep (stack : List UInt8)
  | flush (line : List UInt8)
  | eof

def stored (st : List UInt8) (c : UInt8) : List UInt8 :=
  if st.length < ptyIcanonSize - 1 then c :: st else st

def ended (st : List UInt8) (c : UInt8) : List UInt8 :=
  (if st.head? = some c then st else c :: st).reverse

/-- The stored byte is taken back, and more with it. -/
def erased (st : List UInt8) (word : Int) : List UInt8 :=
  eraseStack word st.tail.length st.tail false

def lineByte (t : Termios) (st : List UInt8) (c : UInt8) : LineEffect :=
  if c = 10 then .flush (ended (stored st c) c)
  else if isCc t veof c then
    if (stored st c).length = 1 then .eof else .flush (ended (stored st c) c)
  else if isCc t verase c then .keep (erased (stored st c) 0)
  else if isCc t vkill c then .keep (erased (stored st c) (-1))
  else if isCc t vwerase c then .keep (erased (stored st c) 1)
  else if isCc t veol c then .flush (ended (stored st c) c)
  else .keep (stored st c)

@[simp] theorem length_stackOf (size : Nat) : (stackOf base size).length = size := by
  induction size with
  | zero => rfl
  | succ size ih => simp [stackOf, ih]

theorem stackOf_update (c : UInt8) {i : Nat} (size : Nat) (h : size ≤ i) :
    stackOf (update base i c) size = stackOf base size := by
  induction size with
  | zero => rfl
  | succ size ih =>
    rw [stackOf, stackOf, ih (by omega), update_of_ne (by omega)]

theorem reverse_stackOf (size : Nat) : (stackOf base size).reverse = (range size).map base := by
  induction size with
  | zero => rfl
  | succ size ih => rw [stackOf, reverse_cons, ih, range_succ, map_append]; rfl

theorem stack_storeByte (s : PtySharedData) (c : UInt8) : (storeByte s c).stack = c :: s.stack := by
  show stackOf (update s.icanon.base s.icanon.size c) (s.icanon.size + 1) = _
  rw [stackOf, stackOf_update _ _ _ le_rfl, update_self]
  rfl

theorem length_stack (s : PtySharedData) : s.stack.length = s.icanon.size := length_stackOf _ _

/-! ## Erasing -/

theorem popChar_eraseBytes (size : Nat) : ∀ ic : UInt8,
    popChar (ic :: stackOf base size) =
      ((eraseBytes base size ic).2, stackOf base (eraseBytes base size ic).1) := by
  induction size with
  | zero => exact fun ic => rfl
  | succ size ih =>
    intro ic
    rw [stackOf, popChar, eraseBytes]
    by_cases hic : ic &&& 0xC0 = 0x80
    · rw [if_pos hic, if_pos (by rw [isContinuation, hic]; rfl)]
      exact ih (base size)
    · rw [if_neg hic, if_neg (by rw [isContinuation]; simpa using hic)]
      rfl

theorem length_popChar (st : List UInt8) : st ≠ [] → (popChar st).2.length < st.length := by
  induction st with
  | nil => simp
  | cons c st ih =>
    intro _
    cases st with
    | nil => exact Nat.succ_pos _
    | cons d st =>
      rw [popChar]
      split
      · exact Nat.lt_succ_of_lt (ih (cons_ne_nil _ _))
      · simp

/-- Only the output and the line are changed, and the bytes of the line are
those that were there. -/
def Shown (s s' : PtySharedData) : Prop :=
  ∃ b size, b 1 = s.buffer 1 ∧ s' = { s with buffer := b, icanon := { s.icanon with size := size } }

theorem Shown.refl (s : PtySharedData) : Shown s s := ⟨s.buffer, s.icanon.size, rfl, rfl⟩

variable {s'' : PtySharedData}

theorem Shown.trans (h : Shown s s') (h' : Shown s' s'') : Shown s s'' := by
  obtain ⟨b, size, hb, rfl⟩ := h
  obtain ⟨b', size', hb', rfl⟩ := h'
  exact ⟨b', size', hb'.trans hb, rfl⟩

theorem writeBuffer_shown (s : PtySharedData) (c : UInt8) :
    Shown s (writeBuffer s 0 c).2 ∧ (writeBuffer s 0 c).2.icanon = s.icanon := by
  unfold writeBuffer
  dsimp only
  split
  · exact ⟨.refl s, rfl⟩
  · exact ⟨⟨_, s.icanon.size, update_of_ne (by decide) _ _, rfl⟩, rfl⟩

theorem echoBytes_shown (cs : List UInt8) : ∀ s : PtySharedData,
    Shown s (echoBytes s cs) ∧ (echoBytes s cs).icanon = s.icanon := by
  induction cs with
  | nil => exact fun s => ⟨.refl s, rfl⟩
  | cons c cs ih =>
    intro s
    obtain ⟨h1, h2⟩ := writeBuffer_shown s c
    obtain ⟨h3, h4⟩ := ih (writeBuffer s 0 c).2
    exact ⟨h1.trans h3, h4.trans h2⟩

theorem writeEchoMain_shown (s : PtySharedData) (c : UInt8) :
    Shown s (writeEchoMain s c) ∧ (writeEchoMain s c).icanon = s.icanon := by
  unfold writeEchoMain
  split
  · split
    all_goals exact echoBytes_shown _ s
  · exact echoBytes_shown _ s

theorem stack_of_icanon (h : s'.icanon = s.icanon) : s'.stack = s.stack := by
  simp [PtySharedData.stack, h]

theorem isBlank_iff : isBlank c = true ↔ c = 0x09 ∨ c = 0x20 := by
  simp [isBlank]

theorem eraseLoop_stack (c : UInt8) (word : Int) (eraseCharacter : Bool) (rounds : Nat) :
    ∀ (s : PtySharedData) (echo wordState : Bool),
      Shown s (eraseLoop c word eraseCharacter rounds s echo wordState) ∧
        (eraseLoop c word eraseCharacter rounds s echo wordState).stack =
          eraseStack word rounds s.stack wordState := by
  induction rounds with
  | zero => exact fun s _ _ => ⟨.refl s, rfl⟩
  | succ rounds ih =>
    intro s echo wordState
    rw [eraseLoop, eraseStack]
    by_cases hzero : s.icanon.size = 0
    · have hnil : s.stack = [] := by rw [PtySharedData.stack, hzero]; rfl
      rw [if_pos hzero, if_pos hnil]
      exact ⟨.refl s, hnil⟩
    have hne : s.stack ≠ [] := by
      rw [← length_pos_iff, length_stack]
      omega
    obtain ⟨r, hr⟩ : ∃ r, r = eraseBytes s.icanon.base (s.icanon.size - 1)
      (s.icanon.base (s.icanon.size - 1)) := ⟨_, rfl⟩
    obtain ⟨s1, hs1⟩ : ∃ s1 : PtySharedData,
      s1 = { s with icanon := { s.icanon with size := r.1 } } := ⟨_, rfl⟩
    -- The bytes of a character are taken from both.
    have hpop : popChar s.stack = (r.2, s1.stack) := by
      have hstack : s.stack = s.icanon.base (s.icanon.size - 1) ::
          stackOf s.icanon.base (s.icanon.size - 1) := by
        rw [PtySharedData.stack]
        conv => lhs; rw [show s.icanon.size = s.icanon.size - 1 + 1 by omega]
        rfl
      rw [hstack, popChar_eraseBytes, ← hr, hs1]
      rfl
    have hshown : Shown s s1 := ⟨s.buffer, r.1, rfl, hs1⟩
    obtain ⟨s2, hs2⟩ : ∃ s2, s2 =
      if echo then echoBytes s1 (eraseEcho c r.2 eraseCharacter) else s1 := ⟨_, rfl⟩
    have hecho : Shown s s2 ∧ s2.icanon = s1.icanon := by
      rw [hs2]
      split
      · exact ⟨hshown.trans (echoBytes_shown _ s1).1, (echoBytes_shown _ s1).2⟩
      · exact ⟨hshown, rfl⟩
    have hstack2 : s2.stack = s1.stack := stack_of_icanon hecho.2
    have hword : (wordState || (r.2 != 0x09 && r.2 != 0x20)) =
        (wordState || !isBlank (popChar s.stack).1) := by
      rw [hpop]
      simp [isBlank, bne]
    rw [if_neg hzero, if_neg hne]
    simp only [← hr, ← hs1, ← hs2, hword]
    rw [hpop]
    by_cases h0 : word = 0
    · rw [if_pos h0, if_pos h0]
      exact ⟨hecho.1, hstack2⟩
    rw [if_neg h0, if_neg h0]
    -- The byte before the word that was erased.
    have hbefore : (word > 0 ∧ s2.icanon.size > 0 ∧ (wordState || !isBlank r.2) = true ∧
          (s2.icanon.base (s2.icanon.size - 1) = 0x09 ∨
            s2.icanon.base (s2.icanon.size - 1) = 0x20)) ↔
        (word > 0 ∧ (wordState || !isBlank r.2) = true ∧
          (s1.stack.head?.any isBlank) = true) := by
      rw [← hstack2]
      rcases Nat.eq_zero_or_pos s2.icanon.size with hsize | hsize
      · have hnil : s2.stack = [] := by rw [PtySharedData.stack, hsize]; rfl
        simp [hsize, hnil]
      have hcons : s2.stack.head? = some (s2.icanon.base (s2.icanon.size - 1)) := by
        rw [PtySharedData.stack]
        conv => lhs; rw [show s2.icanon.size = s2.icanon.size - 1 + 1 by omega]
        rfl
      rw [hcons, Option.any_some, isBlank_iff]
      simp [hsize]
    by_cases hstop : word > 0 ∧ (wordState || !isBlank r.2) = true ∧
        (s1.stack.head?.any isBlank) = true
    · rw [if_pos (hbefore.mpr hstop), if_pos hstop]
      exact ⟨hecho.1, hstack2⟩
    · rw [if_neg (fun h => hstop (hbefore.mp h)), if_neg hstop]
      obtain ⟨h1, h2⟩ := ih s2 (echo && eraseCharacter) (wordState || !isBlank r.2)
      exact ⟨hecho.1.trans h1, h2.trans (by rw [hstack2])⟩

theorem eraseByte_stack (s : PtySharedData) (c : UInt8) (word : Int) :
    Shown s (eraseByte s c word) ∧ (eraseByte s c word).stack = erased s.stack word := by
  have hless : Shown s { s with icanon := { s.icanon with size := s.icanon.size - 1 } } :=
    ⟨s.buffer, _, rfl, rfl⟩
  have htail : stackOf s.icanon.base (s.icanon.size - 1) = s.stack.tail := by
    rw [PtySharedData.stack]
    cases s.icanon.size with
    | zero | succ => rfl
  obtain ⟨h1, h2⟩ := eraseLoop_stack c word
    ((has s.termios.cLflag lflagEchoe && decide (word ≥ 0)) ||
      (has s.termios.cLflag lflagEchok && decide (word < 0)))
    (s.icanon.size - 1) { s with icanon := { s.icanon with size := s.icanon.size - 1 } }
    (has s.termios.cLflag lflagEcho) false
  refine ⟨hless.trans h1, h2.trans ?_⟩
  rw [erased, ← htail, length_stackOf]
  rfl

theorem foldl_writeByteMain_buffer (line : List UInt8) : ∀ s : PtySharedData,
    ∃ b, line.foldl (fun s c => (writeByteMain s c).2) s = { s with buffer := b } := by
  induction line with
  | nil => exact fun s => ⟨s.buffer, rfl⟩
  | cons c line ih =>
    intro s
    have hc : ∃ b, (writeByteMain s c).2 = { s with buffer := b } := by
      unfold writeByteMain writeBuffer
      dsimp only
      split
      · exact ⟨s.buffer, rfl⟩
      · exact ⟨_, rfl⟩
    obtain ⟨b, hb⟩ := hc
    obtain ⟨b', hb'⟩ := ih (writeByteMain s c).2
    exact ⟨b', by rw [foldl_cons, hb', hb]⟩

/-- What is to be said of a terminal after a byte. -/
structure Line (s s' : PtySharedData) (stack input : List UInt8) (eof : Bool) : Prop where
  stack : s'.stack = stack
  input : s'.input = s.input ++ input
  eof : s'.eof = eof
  termios : s'.termios = s.termios
  taken : s'.taken = s.taken

theorem flushLine_line (s : PtySharedData) : Line s (flushLine s) [] s.stack.reverse s.eof := by
  obtain ⟨b, hb⟩ := foldl_writeByteMain_buffer ((range s.icanon.size).map s.icanon.base) s
  unfold flushLine
  dsimp only
  rw [hb]
  exact ⟨rfl, by rw [PtySharedData.stack, reverse_stackOf], rfl, rfl, rfl⟩

theorem Shown.line (h : Shown s s') : Line s s' s'.stack [] s.eof := by
  obtain ⟨b, size, -, rfl⟩ := h
  exact ⟨rfl, (append_nil _).symm, rfl, rfl, rfl⟩

theorem endLine_line (h : s.stack ≠ []) (c : UInt8) :
    Line s (endLine s c) [] (ended s.stack c) s.eof := by
  have hhead : s.stack.head? = some (s.icanon.base (s.icanon.size - 1)) := by
    rw [← length_pos_iff, length_stack] at h
    rw [PtySharedData.stack]
    conv => lhs; rw [show s.icanon.size = s.icanon.size - 1 + 1 by omega]
    rfl
  unfold endLine ended
  rw [hhead]
  by_cases hlast : s.icanon.base (s.icanon.size - 1) = c
  · rw [if_neg (not_not.mpr hlast), if_pos (congrArg some hlast)]
    exact flushLine_line s
  · rw [if_pos hlast, if_neg (fun heq => hlast (some.inj heq))]
    have hline := flushLine_line (storeByte s c)
    rw [stack_storeByte] at hline
    exact ⟨hline.stack, hline.input, hline.eof, hline.termios, hline.taken⟩

/-- A terminal after a byte with this effect on the line. -/
def Follows (s : PtySharedData) (r : PtySharedData × ByteEnd) : LineEffect → Prop
  | .keep st => r.2 = .next ∧ Line s r.1 st [] s.eof
  | .flush line => r.2 = .next ∧ Line s r.1 [] line s.eof
  | .eof => r.2 = .stop ∧ Line s r.1 [] [] true

theorem Line.after {stack input : List UInt8} {eof : Bool} (h : Line s s' s'.stack [] s.eof)
    (h' : Line s' s'' stack input eof) :
    Line s s'' stack input eof :=
  ⟨h'.stack, by simp [h'.input, h.input], h'.eof, h'.termios.trans h.termios,
    h'.taken.trans h.taken⟩

theorem stored_ne_nil (st : List UInt8) (c : UInt8) : stored st c ≠ [] := by
  unfold stored
  split
  · simp
  · next hfull =>
      rintro rfl
      exact hfull (by decide)

theorem canonByte_follows (s : PtySharedData) (c : UInt8) (echo : Bool) :
    Follows s (canonByte s c echo) (lineByte s.termios s.stack c) := by
  obtain ⟨s1, hs1⟩ : ∃ s1, s1 =
    if s.icanon.size < ptyIcanonSize - 1 then storeByte s c else s := ⟨_, rfl⟩
  have hstack : s1.stack = stored s.stack c := by
    rw [hs1, stored, length_stack]
    split
    · exact stack_storeByte s c
    · rfl
  have hline : Line s s1 s1.stack [] s.eof := by
    rw [hs1]
    split
    all_goals exact ⟨rfl, (append_nil _).symm, rfl, rfl, rfl⟩
  have hne : s1.stack ≠ [] := hstack ▸ stored_ne_nil s.stack c
  obtain ⟨s2, hs2⟩ : ∃ s2, s2 = if echo then writeEchoMain s1 c else s1 := ⟨_, rfl⟩
  have hshown : Shown s1 s2 ∧ s2.icanon = s1.icanon := by
    rw [hs2]
    split
    · exact writeEchoMain_shown s1 c
    · exact ⟨.refl s1, rfl⟩
  have hstack2 : s2.stack = s1.stack := stack_of_icanon hshown.2
  have hline2 : Line s s2 s2.stack [] s.eof := hline.after (hline.eof ▸ hshown.1.line)
  have hend1 : Line s (endLine s1 c) [] (ended (stored s.stack c) c) s.eof := by
    have := endLine_line hne c
    rw [hline.eof, hstack] at this
    exact hline.after this
  have hend2 : Line s (endLine s2 c) [] (ended (stored s.stack c) c) s.eof := by
    have := endLine_line (hstack2 ▸ hne) c
    rw [hline2.eof, hstack2, hstack] at this
    exact hline2.after this
  have herase : ∀ word, Line s (eraseByte s1 c word) (erased (stored s.stack c) word) [] s.eof := by
    intro word
    obtain ⟨h1, h2⟩ := eraseByte_stack s1 c word
    have := h1.line
    rw [h2, hstack, hline.eof] at this
    exact hline.after this
  unfold canonByte lineByte
  simp only [← hs1, ← hs2]
  by_cases hlf : c = 10
  · rw [if_pos hlf, if_pos hlf]
    exact ⟨rfl, hend2⟩
  rw [if_neg hlf, if_neg hlf]
  by_cases heof : isCc s.termios veof c = true
  · rw [if_pos heof, if_pos heof, ← length_stack, hstack]
    by_cases hone : (stored s.stack c).length = 1
    · rw [if_pos hone, if_pos hone]
      exact ⟨rfl, rfl, hline.input, rfl, hline.termios, hline.taken⟩
    · rw [if_neg hone, if_neg hone]
      exact ⟨rfl, hend1⟩
  rw [if_neg heof, if_neg heof]
  by_cases h1 : isCc s.termios verase c = true
  · rw [if_pos h1, if_pos h1]
    exact ⟨rfl, herase 0⟩
  rw [if_neg h1, if_neg h1]
  by_cases h2 : isCc s.termios vkill c = true
  · rw [if_pos h2, if_pos h2]
    exact ⟨rfl, herase (-1)⟩
  rw [if_neg h2, if_neg h2]
  by_cases h3 : isCc s.termios vwerase c = true
  · rw [if_pos h3, if_pos h3]
    exact ⟨rfl, herase 1⟩
  rw [if_neg h3, if_neg h3]
  by_cases h4 : isCc s.termios veol c = true
  · rw [if_pos h4, if_pos h4]
    exact ⟨rfl, hend2⟩
  · rw [if_neg h4, if_neg h4]
    refine ⟨rfl, ?_⟩
    rwa [← hstack, ← hstack2]

def typedByte (t : Termios) (st : List UInt8) (x : UInt8) : LineEffect :=
  match translate t.cIflag x with
  | none => .keep st
  | some c => if isSignal t c then .keep [] else lineByte t st c

/-- Canonical mode takes no byte while the reader is far behind; otherwise the
terminal follows the line discipline. -/
theorem writeMainByte_follows (hcanon : s.isIcanon = true) (x : UInt8) :
    ptyIcanonSize < bufferState s 1 ∧ writeMainByte s x = (s, .retry) ∨
      Follows s (writeMainByte s x) (typedByte s.termios s.stack x) := by
  unfold writeMainByte typedByte
  rcases translate s.termios.cIflag x with _ | c
  · exact .inr ⟨rfl, rfl, (append_nil _).symm, rfl, rfl, rfl⟩
  dsimp only
  by_cases hsignal : isSignal s.termios c = true
  · rw [if_pos hsignal, if_pos hsignal]
    refine .inr ⟨rfl, ?_⟩
    split
    · obtain ⟨⟨b, size, -, hb⟩, -⟩ := writeEchoMain_shown s c
      rw [hb]
      exact ⟨rfl, (append_nil _).symm, rfl, rfl, rfl⟩
    · exact ⟨rfl, (append_nil _).symm, rfl, rfl, rfl⟩
  · rw [if_neg hsignal, if_neg hsignal, if_pos hcanon]
    by_cases hfull : bufferState s 1 > ptyIcanonSize
    · rw [if_pos hfull]
      exact .inl ⟨hfull, rfl⟩
    · rw [if_neg hfull]
      exact .inr (canonByte_follows s c _)

theorem Line.isIcanon {stack input : List UInt8} {eof : Bool} (h : Line s s' stack input eof) :
    s'.isIcanon = s.isIcanon := by
  simp [PtySharedData.isIcanon, h.termios]

/-! ## Calls that leave the line -/

/-- The line, what was put for the reader and the mode are the same. -/
structure SameLine (s s' : PtySharedData) : Prop where
  icanon : s'.icanon = s.icanon
  input : s'.input = s.input
  termios : s'.termios = s.termios

theorem SameLine.refl (s : PtySharedData) : SameLine s s := ⟨rfl, rfl, rfl⟩

theorem SameLine.trans (h : SameLine s s') (h' : SameLine s' s'') :
    SameLine s s'' :=
  ⟨h'.icanon.trans h.icanon, h'.input.trans h.input, h'.termios.trans h.termios⟩

theorem readBuffer_sameLine (s : PtySharedData) (i : Fin 2) :
    SameLine s (readBuffer s i).2 ∧ (readBuffer s i).2.eof = s.eof ∧
      (readBuffer s i).2.taken = s.taken := by
  unfold readBuffer
  dsimp only
  split
  all_goals exact ⟨⟨rfl, rfl, rfl⟩, rfl, rfl⟩

theorem readSecondaryLoop_sameLine (icanon : Bool) (veof : UInt8) (left : Nat) :
    ∀ (s : PtySharedData) (bs : List UInt8),
      SameLine s (readSecondaryLoop icanon veof left s bs).1 := by
  induction left with
  | zero => exact fun s _ => .refl s
  | succ left ih =>
    intro s bs
    have hread := (readBuffer_sameLine s 1).1
    rw [readSecondaryLoop]
    rcases hc : readBuffer s 1 with ⟨_ | c, s1⟩
    · rw [hc] at hread
      exact ⟨hread.icanon, hread.input, hread.termios⟩
    rw [hc] at hread
    have hs1 : SameLine s { s1 with taken := s1.taken ++ [c] } :=
      ⟨hread.icanon, hread.input, hread.termios⟩
    dsimp only
    split
    · exact hs1
    split
    · exact hs1
    · exact hs1.trans (ih _ _)

theorem readMainLoop_shown (left : Nat) : ∀ (s : PtySharedData) (bs : List UInt8),
    Shown s (readMainLoop left s bs).1 ∧ (readMainLoop left s bs).1.icanon = s.icanon := by
  have hread : ∀ s : PtySharedData,
      Shown s (readBuffer s 0).2 ∧ (readBuffer s 0).2.icanon = s.icanon := by
    intro s
    unfold readBuffer
    dsimp only
    split
    all_goals exact ⟨⟨_, s.icanon.size, update_of_ne (by decide) _ _, rfl⟩, rfl⟩
  induction left with
  | zero => exact fun s _ => ⟨.refl s, rfl⟩
  | succ left ih =>
    intro s bs
    have hs := hread s
    rw [readMainLoop]
    rcases hc : readBuffer s 0 with ⟨_ | c, s1⟩
    · rw [hc] at hs
      exact hs
    · rw [hc] at hs
      obtain ⟨h1, h2⟩ := ih s1 (bs ++ [c])
      exact ⟨hs.1.trans h1, h2.trans hs.2⟩

theorem signalEvent_shown (s : PtySharedData) : Shown s (signalEvent s 0) :=
  ⟨_, s.icanon.size, update_of_ne (by decide) _ _, rfl⟩

theorem writeByteSecondary_shown (s : PtySharedData) (c : UInt8) :
    Shown s (writeByteSecondary s c).2 ∧ (writeByteSecondary s c).2.icanon = s.icanon := by
  have hbyte := writeBuffer_shown s
  unfold writeByteSecondary
  split
  · exact hbyte c
  split
  · split
    · exact ⟨.refl s, rfl⟩
    · obtain ⟨h1, h2⟩ := hbyte 13
      obtain ⟨h3, h4⟩ := writeBuffer_shown (writeBuffer s 0 13).2 10
      exact ⟨h1.trans h3, h4.trans h2⟩
  · exact hbyte c

theorem nWriteSecondary_shown (s : PtySharedData) (idGroup : Int) (buffer : List UInt8) :
    Shown s (nWriteSecondary s idGroup buffer).1 ∧
      (nWriteSecondary s idGroup buffer).1.icanon = s.icanon := by
  have hloop : ∀ (xs : List UInt8) (s : PtySharedData) (size : Nat),
      Shown s (writeSecondaryLoop xs s size).1 ∧
        (writeSecondaryLoop xs s size).1.icanon = s.icanon := by
    intro xs
    induction xs with
    | nil => exact fun s _ => ⟨.refl s, rfl⟩
    | cons x xs ih =>
      intro s size
      have hs := writeByteSecondary_shown s x
      rw [writeSecondaryLoop]
      rcases hc : writeByteSecondary s x with ⟨_ | _, s1⟩
      · rw [hc] at hs
        exact hs
      · rw [hc] at hs
        obtain ⟨h1, h2⟩ := ih s1 (size + 1)
        exact ⟨hs.1.trans h1, h2.trans hs.2⟩
  unfold nWriteSecondary
  dsimp only
  generalize (if s.group > 0 ∧ has s.termios.cLflag lflagTostop = true ∧
    s.group ≠ idGroup ∧ idGroup > 1 then [] else buffer) = xs
  obtain ⟨h1, h2⟩ := hloop xs s 0
  split
  · exact ⟨h1.trans (signalEvent_shown _), h2⟩
  · exact ⟨h1, h2⟩

end Dancy.Pty
