import Dancy.Block.Units

/-!
# Floppy transfers (`misc/floppy.c`)

A floppy is addressed by cylinder, head and sector. Every attempt takes one
reply of the controller; seeks, resets and the motor move no data and are left
out.
-/

namespace Dancy.Block.Floppy

open Lib Function List Option

/-- The bytes of a medium by cylinder, head, sector and place in the sector. -/
abbrev Medium := Nat → Nat → Nat → Nat → UInt8

/-- A table of a drive: all zero, or as `table_default` and the checks of
`read_bios_parameter_block` leave it. -/
structure FloppyTable where
  (sectorSize cylinders heads sectorsPerTrack rate wGpl wSrt wHut : Nat)
  sound : (sectorSize = 0 ∧ cylinders = 0) ∨ (sectorSize = 512 ∧ 40 ≤ cylinders ∧ cylinders ≤ 127 ∧
    1 ≤ heads ∧ heads ≤ 2 ∧ 8 ≤ sectorsPerTrack ∧ sectorsPerTrack ≤ 63)

def tableDefault : List FloppyTable :=
  [⟨512, 80, 2, 18, 0x00, 0x1B, 12, 15, by decide⟩, ⟨512, 80, 2, 9, 0x02, 0x2A, 13, 15, by decide⟩]

def FloppyTable.zero : FloppyTable := ⟨0, 0, 0, 0, 0, 0, 0, 0, by decide⟩

/-- The size that `n_stat` reports. -/
def FloppyTable.size (t : FloppyTable) : Nat :=
  t.sectorSize * t.sectorsPerTrack * t.heads * t.cylinders

structure DriveData where
  type : Nat
  mediaChanged : Bool
  table : FloppyTable

/-- A command of the controller, the bytes that the DMA channel is set to, and the
table that was in force. -/
structure FloppyCommand where
  write : Bool
  (drive cylinder head sector sizeCode endOfTrack size : Nat)
  table : FloppyTable

structure Fdc where
  (floppyState dsel : Nat)
  drives : Nat → DriveData
  media : Nat → Medium
  (memory dma boot : Bytes)
  attempts : Nat
  issued : List FloppyCommand

/-- What the hardware answers to one attempt. A status byte that does not arrive is `-1`,
which has all bits. -/
structure Reply where
  (dmaFails diskChange : Bool)
  (st0 st1 moved : Nat)
  left : Bytes

def Fdc.setDrive (f : Fdc) (g : DriveData → DriveData) : Fdc :=
  { f with drives := update f.drives f.dsel (g (f.drives f.dsel)) }

def Fdc.table (f : Fdc) : FloppyTable := (f.drives f.dsel).table

/-! ## The controller -/

def trackBytes (d : Medium) (sectorSize c h s : Nat) : Bytes :=
  fun k => d c h (s + k / sectorSize) (k % sectorSize)

/-- `size` bytes of `data` written to a track from a sector on. -/
def writeTrack (d : Medium) (sectorSize c h s size : Nat) (data : Bytes) : Medium :=
  fun c' h' s' k =>
    if c' = c ∧ h' = h ∧ s ≤ s' ∧ k < sectorSize ∧ (s' - s) * sectorSize + k < size then
      data ((s' - s) * sectorSize + k)
    else d c' h' s' k

def Fdc.perform (f : Fdc) (c : FloppyCommand) (o : Outcome) : Fdc :=
  let sectorSize := 128 <<< c.sizeCode
  let data := if c.write then f.dma else trackBytes (f.media c.drive) sectorSize c.cylinder c.head c.sector
  let data := if o.done then data else o.left
  let size := if o.done then c.size else min o.moved c.size
  let f := { f with issued := f.issued ++ [c] }
  if c.write then
    { f with media := update f.media c.drive
                        (writeTrack (f.media c.drive) sectorSize c.cylinder c.head c.sector size data) }
  else { f with dma := f.dma.copy 0 data 0 size }

def fdc0MediaChanged (diskChange : Bool) (f : Fdc) : Bool × Fdc :=
  let f := if diskChange then f.setDrive fun d => { d with mediaChanged := true } else f
  ((f.drives f.dsel).mediaChanged, f)

/-- The first `i` below 8 with sectors of `128 << i` bytes, or 2. -/
def sizeCode (sectorSize : Nat) : Nat :=
  ((range 8).find? fun i => 128 <<< i = sectorSize).getD 2

def statusError (reply : Reply) (write : Bool) : Option DeviceError :=
  if reply.st0 &&& 0xC0 ≠ 0 then
    if reply.st1.testBit 0 then some .addressMark
    else if reply.st1.testBit 1 then some .readOnly
    else if reply.st1.testBit 2 then some .empty
    else if reply.st1.testBit 4 then some .overrun
    else if reply.st1.testBit 5 then some .checksum
    else some (blockError write)
  else none

def fdc0ReadWrite (reply : Reply) (c h s size : Nat) (write : Bool) (f : Fdc) :
    Option DeviceError × Fdc :=
  let wEot := f.table.sectorsPerTrack
  let command : FloppyCommand :=
    { write, drive := f.dsel, cylinder := c, head := h, sector := s
      sizeCode := sizeCode f.table.sectorSize
      endOfTrack := if s < wEot then wEot else s
      size, table := f.table }
  (statusError reply write, f.perform command ⟨(statusError reply write).isNone, reply.moved, reply.left⟩)

/-- What `fdc0_read` and `fdc0_write` share; the data of a write is in the DMA buffer. -/
def fdc0Command (reply : Reply) (c h s size : Nat) (write : Bool) (f : Fdc) :
    Option DeviceError × Fdc :=
  let (changed, f) := fdc0MediaChanged reply.diskChange f
  if changed then (some .mediaChanged, f) else fdc0ReadWrite reply c h s size write f

/-- `set_dma` turns down what its buffer does not hold. -/
def dmaRefuses (reply : Reply) (size : Nat) : Bool := size = 0 ∨ 0x10000 < size ∨ reply.dmaFails

/-- Where `fdc0_read` copies to: memory, or the buffer of `prepare_transfer`. -/
inductive Target where
  | memory (address : Nat)
  | boot

def Fdc.deliver (f : Fdc) (size : Nat) : Target → Fdc
  | .memory address => { f with memory := f.memory.copy address f.dma 0 size }
  | .boot => { f with boot := f.boot.copy 0 f.dma 0 size }

def fdc0Read (replies : Nat → Reply) (c h s size : Nat) (target : Target) (f : Fdc) :
    Option DeviceError × Fdc :=
  let reply := replies f.attempts
  let f := { f with attempts := f.attempts + 1 }
  if dmaRefuses reply size then (some .memory, f)
  else
    match fdc0Command reply c h s size false { f with dma := f.dma.fill 0 0 size } with
    | (some e, f) => (some e, f)
    | (none, f) => (none, f.deliver size target)

def fdc0Write (replies : Nat → Reply) (c h s size address : Nat) (f : Fdc) :
    Option DeviceError × Fdc :=
  let reply := replies f.attempts
  let f := { f with attempts := f.attempts + 1 }
  if dmaRefuses reply size then (some .memory, f)
  else fdc0Command reply c h s size true { f with dma := f.dma.copy 0 f.memory address size }

def readBiosParameterBlock (buffer : Bytes) (d : DriveData) : DriveData :=
  let sectorSize := buffer.word 11
  let sectorsPerTrack := buffer.word 24
  let heads := buffer.word 26
  let cylinders := buffer.word 19 / heads / sectorsPerTrack
  if buffer.word 510 ≠ 0xAA55 then d
  else if h : sectorSize = 512 ∧ ¬ (sectorsPerTrack < 8 ∨ 63 < sectorsPerTrack) ∧
      ¬ (heads < 1 ∨ 2 < heads) ∧ ¬ (cylinders < 40 ∨ 127 < cylinders) then
    { d with table := { d.table with sectorSize, cylinders, heads, sectorsPerTrack,
                                     sound := by right; omega } }
  else d

/-- `for (i = 0; i < (int)count; i++)`, with `r` and `r_directive` -/
def tryTables (replies : Nat → Reply) :
    List FloppyTable → Option DeviceError → Option DeviceError → Fdc →
      Option DeviceError × Option DeviceError × Fdc
  | [], r, directive, f => (r, directive, f)
  | t :: ts, _, directive, f =>
    let f := f.setDrive fun d => { d with table := t, mediaChanged := false }
    match fdc0Read replies 0 0 1 1024 .boot f with
    | (none, f) => (none, directive, f)
    | (some e, f) =>
      let directive := some (directive.getD e)
      match fdc0Read replies 0 0 1 1024 .boot f with
      | (none, f) => (none, directive, f)
      | (some e, f) => tryTables replies ts (some e) directive f

/-- The part of `prepare_transfer` for a medium that is not known yet. -/
def probeMedium (replies : Nat → Reply) (f : Fdc) : Option DeviceError × Fdc :=
  let debut := !(f.drives f.dsel).type.testBit 12
  let f := f.setDrive fun d => { d with type := d.type ||| 0x1000 }
  match tryTables replies tableDefault none none f with
  | (some _, directive, f) =>
    (directive, f.setDrive fun d => { d with table := .zero, mediaChanged := true })
  | (none, _, f) =>
    let f := f.setDrive (readBiosParameterBlock f.boot)
    (if debut then none else some .mediaChanged, { f with floppyState := 2 })

/-- `diskChange` is the answer to the check for a new medium. -/
def prepareTransfer (replies : Nat → Reply) (diskChange : Bool) (dsel : Int) (f : Fdc) :
    Option DeviceError × Fdc :=
  if f.floppyState < 1 ∨ dsel < 0 ∨ 1 < dsel then (some .unsupported, f)
  else if (f.drives dsel.toNat).type = 0 then (some .unsupported, f)
  else
    let f := { f with dsel := dsel.toNat }
    if f.floppyState = 1 then probeMedium replies f
    else
      match fdc0MediaChanged diskChange f with
      | (true, f) => probeMedium replies f
      | (false, f) => (none, f)

structure FloppyReport where
  error : Option DeviceError
  size : Nat
  fdc : Fdc

/-- `while (retry_count--)`; a failed attempt is tried again with a single sector. -/
def retryLoop (command : Nat → Fdc → Option DeviceError × Fdc) (sectorSize : Nat) :
    Nat → Option DeviceError → Nat → Fdc → Option DeviceError × Nat × Fdc
  | 0, r, trackSize, f => (r, trackSize, f)
  | n + 1, _, trackSize, f =>
    match command trackSize f with
    | (none, f) => (none, trackSize, f)
    | (some .mediaChanged, f) => (some .mediaChanged, trackSize, f)
    | (some e, f) => retryLoop command sectorSize n (some e) sectorSize f

/-- `fdc0_read` or `fdc0_write` for the memory at `address` -/
def fdc0Transfer (replies : Nat → Reply) (write : Bool) (c h s address size : Nat) (f : Fdc) :
    Option DeviceError × Fdc :=
  if write then fdc0Write replies c h s size address f
  else fdc0Read replies c h s size (.memory address) f

/-- `while (transfer_size < requested_size)` -/
def floppyLoop (replies : Nat → Reply) (t : FloppyTable) (write : Bool) (requested : Nat) :
    Nat → Nat → Nat → Nat → Fdc → FloppyReport
  | 0, _, _, done, f => ⟨none, done, f⟩
  | fuel + 1, offset, address, done, f =>
    if done < requested then
      let lba := offset / t.sectorSize
      let c := lba / (t.heads * t.sectorsPerTrack)
      let h := lba % (t.heads * t.sectorsPerTrack) / t.sectorsPerTrack
      let s := lba % t.sectorsPerTrack + 1
      if t.cylinders ≤ c then ⟨none, done, f⟩
      else
        let trackSize := min (t.sectorSize * (t.sectorsPerTrack - (s - 1))) (requested - done)
        match retryLoop (fdc0Transfer replies write c h s address) t.sectorSize 5 none trackSize f with
        | (some e, _, f) => ⟨some e, done, f⟩
        | (none, n, f) =>
          floppyLoop replies t write requested fuel (offset + n) (address + n) (done + n) f
    else ⟨none, done, f⟩

def doTransfer (replies : Nat → Reply) (offset size address : Nat) (write : Bool) (f : Fdc) :
    FloppyReport :=
  let t := f.table
  if t.sectorSize = 0 ∨ t.heads * t.sectorsPerTrack = 0 then ⟨some .unexpected, 0, f⟩
  else if offset &&& (t.sectorSize - 1) ≠ 0 then ⟨some .alignment, 0, f⟩
  else if size &&& (t.sectorSize - 1) ≠ 0 then ⟨some .alignment, 0, f⟩
  else floppyLoop replies t write size size offset address 0 f

/-- What happens before the transfer: the lock, and the check for a new medium. -/
structure Entry where
  (lockFails diskChange : Bool)

/-- `floppy_read` and `floppy_write` -/
def floppyTransfer (replies : Nat → Reply) (entry : Entry) (dsel : Int)
    (offset size address : Nat) (write : Bool) (f : Fdc) : FloppyReport :=
  if 0x7FFFFFFF < offset then ⟨none, 0, f⟩
  else if entry.lockFails then ⟨some .unexpected, 0, f⟩
  else
    match prepareTransfer replies entry.diskChange dsel f with
    | (some e, f) => ⟨some e, 0, f⟩
    | (none, f) => doTransfer replies offset size address write f

/-! ## The order of the sectors -/

def cylinderOf (t : FloppyTable) (lba : Nat) : Nat := lba / (t.heads * t.sectorsPerTrack)

def headOf (t : FloppyTable) (lba : Nat) : Nat := lba % (t.heads * t.sectorsPerTrack) / t.sectorsPerTrack

def sectorOf (t : FloppyTable) (lba : Nat) : Nat := lba % t.sectorsPerTrack + 1

/-- The bytes of a medium one sector after the other. -/
def linear (t : FloppyTable) (d : Medium) : Bytes :=
  fun i => d (cylinderOf t (i / 512)) (headOf t (i / 512)) (sectorOf t (i / 512)) (i % 512)

variable {t : FloppyTable} {lba lba' q n i : Nat} {d : Medium}

theorem track_eq : lba / t.sectorsPerTrack = lba' / t.sectorsPerTrack ↔
    cylinderOf t lba = cylinderOf t lba' ∧ headOf t lba = headOf t lba' := by
  have hc (l : Nat) : cylinderOf t l = l / t.sectorsPerTrack / t.heads := by
    rw [cylinderOf, mul_comm, Nat.div_div_eq_div_mul]
  have hh (l : Nat) : headOf t l = l / t.sectorsPerTrack % t.heads := by
    rw [headOf, mul_comm, Nat.mod_mul_right_div_self]
  rw [hc, hc, hh, hh]
  constructor
  · intro h
    rw [h]
    omega
  · rintro ⟨hdiv, hmod⟩
    rw [← Nat.div_add_mod (lba / t.sectorsPerTrack) t.heads, hdiv, hmod, Nat.div_add_mod]

theorem track_add (h : lba % n + q < n) : (lba + q) / n = lba / n ∧ (lba + q) % n = lba % n + q := by
  have he : lba + q = n * (lba / n) + (lba % n + q) := by
    rw [← add_assoc, Nat.div_add_mod]
  constructor
  · rw [he, Nat.mul_add_div (by omega), Nat.div_eq_of_lt h, add_zero]
  · simp [he, Nat.mod_eq_of_lt h]

theorem linear_track (hn : i < 512 * (t.sectorsPerTrack - lba % t.sectorsPerTrack)) :
    trackBytes d 512 (cylinderOf t lba) (headOf t lba) (sectorOf t lba) i = linear t d (lba * 512 + i) := by
  obtain ⟨hdiv, hmod⟩ := track_add (show lba % t.sectorsPerTrack + i / 512 < t.sectorsPerTrack by omega)
  obtain ⟨hc, hh⟩ := track_eq.mp hdiv
  have hl : (lba * 512 + i) / 512 = lba + i / 512 := by omega
  have hm : (lba * 512 + i) % 512 = i % 512 := by omega
  unfold trackBytes linear
  rw [hl, hm, hc, hh]
  unfold sectorOf
  rw [hmod, add_right_comm]

theorem linear_writeTrack {size : Nat} {data : Bytes}
    (hn : size ≤ 512 * (t.sectorsPerTrack - lba % t.sectorsPerTrack)) :
    linear t (writeTrack d 512 (cylinderOf t lba) (headOf t lba) (sectorOf t lba) size data) =
      (linear t d).copy (lba * 512) data 0 size := by
  funext i
  by_cases hi : lba * 512 ≤ i ∧ i < lba * 512 + size
  · have hq : lba % t.sectorsPerTrack + (i / 512 - lba) < t.sectorsPerTrack := by omega
    obtain ⟨hdiv, hmod⟩ := track_add hq
    obtain ⟨hc, hh⟩ := track_eq.mp hdiv
    rw [show lba + (i / 512 - lba) = i / 512 by omega] at hc hh hmod
    rw [Bytes.copy_inside hi.1 hi.2]
    unfold linear writeTrack sectorOf
    rw [hmod, if_pos ⟨hc, hh, by omega, by omega, by omega⟩]
    exact congrArg data (by omega)
  · rw [Bytes.copy_outside (by omega)]
    refine if_neg fun h => hi ?_
    obtain ⟨hc, hh, hs, hk, hsize⟩ := h
    have hdiv := track_eq.mpr ⟨hc, hh⟩
    unfold sectorOf at hs hsize
    have he := Nat.div_add_mod (i / 512) t.sectorsPerTrack
    have he' := Nat.div_add_mod lba t.sectorsPerTrack
    rw [hdiv] at he
    omega

/-! ## Commands -/

/-- A command stays on one track of its drive, and in the DMA buffer. -/
structure FloppyCommand.Inside (c : FloppyCommand) : Prop where
  cylinder : c.cylinder < c.table.cylinders
  head : c.head < c.table.heads
  first : 1 ≤ c.sector
  sectors : c.sector - 1 + c.size / 512 ≤ c.table.sectorsPerTrack
  sizeCode : 128 <<< c.sizeCode = 512
  whole : c.size % 512 = 0
  room : c.size ≤ 0x10000

structure FloppyTable.Known (t : FloppyTable) : Prop where
  sectorSize : t.sectorSize = 512
  cylinders : 40 ≤ t.cylinders ∧ t.cylinders ≤ 127
  heads : 1 ≤ t.heads ∧ t.heads ≤ 2
  sectorsPerTrack : 8 ≤ t.sectorsPerTrack ∧ t.sectorsPerTrack ≤ 63

theorem FloppyTable.known (t : FloppyTable) (h : t.sectorSize ≠ 0) : t.Known := by
  rcases t.sound with hz | hs
  · omega
  · obtain ⟨h512, hc, hc', hh, hh', hs, hs'⟩ := hs
    exact ⟨h512, ⟨hc, hc'⟩, ⟨hh, hh'⟩, hs, hs'⟩

/-- The sectors from `lba` on, within the track and the medium. -/
structure Range (t : FloppyTable) (lba size : Nat) : Prop where
  known : t.Known
  cylinder : cylinderOf t lba < t.cylinders
  pos : 0 < size
  whole : size % 512 = 0
  track : size ≤ 512 * (t.sectorsPerTrack - lba % t.sectorsPerTrack)

theorem Range.room {size : Nat} (h : Range t lba size) : size ≤ 0x10000 := by
  have := h.track
  have := h.known.sectorsPerTrack
  omega

/-- What a command did, the data being in the DMA buffer. -/
structure Commanded (quiet : Prop) (write : Bool) (lba size : Nat) (f : Fdc)
    (r : Option DeviceError) (f' : Fdc) : Prop where
  dsel : f'.dsel = f.dsel
  state : f'.floppyState = f.floppyState
  tables : ∀ k, (f'.drives k).table = (f.drives k).table
  memory : f'.memory = f.memory
  others : ∀ k, k ≠ f.dsel → f'.media k = f.media k
  media : write = false → f'.media f.dsel = f.media f.dsel
  fetched : r = none → write = false → ∀ k, k < size →
    f'.dma k = linear f.table (f.media f.dsel) (lba * 512 + k)
  written : r = none → write = true → linear f.table (f'.media f.dsel) =
    (linear f.table (f.media f.dsel)).copy (lba * 512) f.dma 0 size
  outside : write = true → ∀ k, k < lba * 512 ∨ lba * 512 + size ≤ k →
    linear f.table (f'.media f.dsel) k = linear f.table (f.media f.dsel) k
  still : quiet → r ≠ none → f'.media f.dsel = f.media f.dsel
  issued : ∀ c ∈ f'.issued, c ∈ f.issued ∨ c.Inside

variable {quiet : Prop} {write : Bool} {size : Nat} {f f' : Fdc} {r : Option DeviceError}

theorem Commanded.refused (e : DeviceError) (hd : f'.dsel = f.dsel) (hst : f'.floppyState = f.floppyState)
    (ht : ∀ k, (f'.drives k).table = (f.drives k).table) (hm : f'.memory = f.memory)
    (hmedia : f'.media = f.media) (hi : f'.issued = f.issued) :
    Commanded quiet write lba size f (some e) f' where
  dsel := hd
  state := hst
  tables := ht
  memory := hm
  others k _ := congrFun hmedia k
  media _ := congrFun hmedia _
  fetched h := by cases h
  written h := by cases h
  outside _ k _ := by rw [hmedia]
  still _ _ := congrFun hmedia _
  issued c hc := Or.inl (hi ▸ hc)

theorem sizeCode_512 : sizeCode 512 = 2 := by decide

theorem headOf_lt (h : Range t lba size) : headOf t lba < t.heads := by
  have hs := h.known.sectorsPerTrack
  have hh := h.known.heads
  exact Nat.div_lt_of_lt_mul (by
    rw [mul_comm]
    exact Nat.mod_lt _ (mul_pos (by omega) (by omega)))

theorem fdc0ReadWrite_commanded (reply : Reply) (hq : quiet → reply.moved = 0)
    (h : Range f.table lba size) :
    Commanded quiet write lba size f
      (fdc0ReadWrite reply (cylinderOf f.table lba) (headOf f.table lba) (sectorOf f.table lba) size
        write f).1
      (fdc0ReadWrite reply (cylinderOf f.table lba) (headOf f.table lba) (sectorOf f.table lba) size
        write f).2 := by
  have h512 : (128 : Nat) <<< sizeCode f.table.sectorSize = 512 := by
    rw [h.known.sectorSize, sizeCode_512]
    rfl
  generalize hc : (⟨write, f.dsel, cylinderOf f.table lba, headOf f.table lba, sectorOf f.table lba,
    sizeCode f.table.sectorSize, if sectorOf f.table lba < f.table.sectorsPerTrack then
      f.table.sectorsPerTrack else sectorOf f.table lba, size, f.table⟩ : FloppyCommand) = c
  have hinside : c.Inside := by
    have htrack := h.track
    have hlt : lba % f.table.sectorsPerTrack < f.table.sectorsPerTrack :=
      Nat.mod_lt _ (by have := h.known.sectorsPerTrack; omega)
    rw [← hc]
    refine ⟨h.cylinder, headOf_lt h, by simp [sectorOf], ?_, h512, h.whole, h.room⟩
    change lba % f.table.sectorsPerTrack + 1 - 1 + size / 512 ≤ f.table.sectorsPerTrack
    omega
  have hissued : ∀ c' ∈ f.issued ++ [c], c' ∈ f.issued ∨ c'.Inside := by
    intro c' hmem
    rcases mem_append.mp hmem with hold | hnew
    · exact Or.inl hold
    · rw [mem_singleton.mp hnew]
      exact Or.inr hinside
  have htrack (k : Nat) (hk : k < size) : trackBytes (f.media f.dsel) 512 (cylinderOf f.table lba)
      (headOf f.table lba) (sectorOf f.table lba) k = linear f.table (f.media f.dsel) (lba * 512 + k) :=
    linear_track (lt_of_lt_of_le hk h.track)
  unfold fdc0ReadWrite
  dsimp only
  rw [hc]
  cases write with
  | false =>
    have hp : f.perform c ⟨(statusError reply false).isNone, reply.moved, reply.left⟩ = { f with
          issued := f.issued ++ [c]
          dma := f.dma.copy 0
            (if (statusError reply false).isNone then trackBytes (f.media f.dsel) 512
              (cylinderOf f.table lba) (headOf f.table lba) (sectorOf f.table lba) else reply.left) 0
            (if (statusError reply false).isNone then size else min reply.moved size) } := by
      rw [← h512, ← hc]
      rfl
    rw [hp]
    refine ⟨rfl, rfl, fun _ => rfl, rfl, fun _ _ => rfl, fun _ => rfl, fun hr _ k hk => ?_,
      fun _ hw => Bool.noConfusion hw, fun hw => Bool.noConfusion hw, fun _ _ => rfl, hissued⟩
    simp only [hr, isNone_none, if_true]
    rw [Bytes.copy_inside (Nat.zero_le k) (by omega), Nat.zero_add, Nat.sub_zero, htrack k hk]
  | true =>
    have hp : f.perform c ⟨(statusError reply true).isNone, reply.moved, reply.left⟩ = { f with
          issued := f.issued ++ [c]
          media := update f.media f.dsel
            (writeTrack (f.media f.dsel) 512 (cylinderOf f.table lba) (headOf f.table lba)
              (sectorOf f.table lba)
              (if (statusError reply true).isNone then size else min reply.moved size)
              (if (statusError reply true).isNone then f.dma else reply.left)) } := by
      rw [← h512, ← hc]
      rfl
    have hle : (if (statusError reply true).isNone then size else min reply.moved size) ≤ size := by
      split
      · rfl
      · exact min_le_right _ _
    have hwrite (data : Bytes) {n : Nat} (hn : n ≤ size) :=
      @linear_writeTrack f.table lba (f.media f.dsel) n data (le_trans hn h.track)
    rw [hp]
    refine ⟨rfl, rfl, fun _ => rfl, rfl, fun k hk => update_of_ne hk _ _,
      fun hw => Bool.noConfusion hw, fun _ hw => Bool.noConfusion hw, fun hr _ => ?_,
      fun _ k hk => ?_, fun q hr => ?_, hissued⟩
    · simp only [hr, update_self]
      exact hwrite _ le_rfl
    · simp only [update_self]
      rw [hwrite _ hle, Bytes.copy_outside (by omega)]
    have hnone : (statusError reply true).isNone = false := by
      rwa [isNone_eq_false_iff, isSome_iff_ne_none]
    simp only [update_self, hnone, Bool.false_eq_true, if_false, hq q]
    funext c' h' s' k
    exact if_neg (by omega)

theorem fdc0MediaChanged_frame (b : Bool) (f : Fdc) :
    ∃ drives, (fdc0MediaChanged b f).2 = { f with drives } ∧
      ∀ k, (drives k).table = (f.drives k).table := by
  cases b with
  | false => exact ⟨f.drives, rfl, fun _ => rfl⟩
  | true =>
    refine ⟨_, rfl, fun k => ?_⟩
    by_cases hk : k = f.dsel
    · rw [hk, update_self]
    · rw [update_of_ne hk]

theorem fdc0Command_commanded (reply : Reply) (hq : quiet → reply.moved = 0)
    (h : Range f.table lba size) :
    Commanded quiet write lba size f
      (fdc0Command reply (cylinderOf f.table lba) (headOf f.table lba) (sectorOf f.table lba) size
        write f).1
      (fdc0Command reply (cylinderOf f.table lba) (headOf f.table lba) (sectorOf f.table lba) size
        write f).2 := by
  obtain ⟨drives, hf, htables⟩ := fdc0MediaChanged_frame reply.diskChange f
  unfold fdc0Command
  generalize fdc0MediaChanged reply.diskChange f = changed at hf
  obtain ⟨b, f1⟩ := changed
  subst hf
  cases b with
  | true => exact Commanded.refused _ rfl rfl htables rfl rfl rfl
  | false =>
    have ht : Fdc.table { f with drives } = f.table := htables f.dsel
    have hs := @fdc0ReadWrite_commanded lba quiet write size { f with drives } reply hq (by rwa [ht])
    rw [ht] at hs
    exact ⟨hs.dsel, hs.state, fun k => (hs.tables k).trans (htables k), hs.memory, hs.others, hs.media,
      ht ▸ hs.fetched, ht ▸ hs.written, ht ▸ hs.outside, hs.still, hs.issued⟩

/-- What an attempt did between the memory at `address` and the medium. -/
structure Attempted (quiet : Prop) (write : Bool) (lba size address : Nat) (f : Fdc)
    (r : Option DeviceError) (f' : Fdc) : Prop where
  dsel : f'.dsel = f.dsel
  tables : ∀ k, (f'.drives k).table = (f.drives k).table
  others : ∀ k, k ≠ f.dsel → f'.media k = f.media k
  media : write = false → f'.media f.dsel = f.media f.dsel
  memory : r ≠ none ∨ write = true → f'.memory = f.memory
  fetched : r = none → write = false → ∃ b, f'.memory = f.memory.copy address b 0 size ∧
    ∀ k, k < size → b k = linear f.table (f.media f.dsel) (lba * 512 + k)
  written : r = none → write = true → ∃ b, linear f.table (f'.media f.dsel) =
    (linear f.table (f.media f.dsel)).copy (lba * 512) b 0 size ∧
    ∀ k, k < size → b k = f.memory (address + k)
  outside : write = true → ∀ k, k < lba * 512 ∨ lba * 512 + size ≤ k →
    linear f.table (f'.media f.dsel) k = linear f.table (f.media f.dsel) k
  still : quiet → r ≠ none → f'.media f.dsel = f.media f.dsel
  issued : ∀ c ∈ f'.issued, c ∈ f.issued ∨ c.Inside

variable {replies : Nat → Reply} {address : Nat}

theorem Attempted.refused (e : DeviceError) (n : Nat) :
    Attempted quiet write lba size address f (some e) { f with attempts := n } where
  dsel := rfl
  tables _ := rfl
  others _ _ := rfl
  media _ := rfl
  memory _ := rfl
  fetched h := by cases h
  written h := by cases h
  outside _ _ _ := rfl
  still _ _ := rfl
  issued _ hc := Or.inl hc

section

variable (hq : quiet → ∀ k, (replies k).moved = 0) (h : Range f.table lba size)
include hq h

theorem fdc0Write_attempted :
    Attempted quiet true lba size address f
      (fdc0Write replies (cylinderOf f.table lba) (headOf f.table lba) (sectorOf f.table lba) size
        address f).1
      (fdc0Write replies (cylinderOf f.table lba) (headOf f.table lba) (sectorOf f.table lba) size
        address f).2 := by
  unfold fdc0Write
  dsimp only
  split
  · exact Attempted.refused _ _
  have hs := @fdc0Command_commanded lba quiet true size
    { f with attempts := f.attempts + 1, dma := f.dma.copy 0 f.memory address size }
    (replies f.attempts) (fun q => hq q _) h
  refine ⟨hs.dsel, hs.tables, hs.others, hs.media, fun _ => hs.memory,
    fun _ hw => Bool.noConfusion hw, fun hr hw => ⟨_, hs.written hr hw, fun k hk => ?_⟩,
    hs.outside, hs.still, hs.issued⟩
  change f.dma.copy 0 f.memory address size k = _
  rw [Bytes.copy_inside (Nat.zero_le k) (by omega), Nat.sub_zero]

theorem fdc0Read_attempted :
    Attempted quiet false lba size address f
      (fdc0Read replies (cylinderOf f.table lba) (headOf f.table lba) (sectorOf f.table lba) size
        (.memory address) f).1
      (fdc0Read replies (cylinderOf f.table lba) (headOf f.table lba) (sectorOf f.table lba) size
        (.memory address) f).2 := by
  unfold fdc0Read
  dsimp only
  split
  · exact Attempted.refused _ _
  have hs := @fdc0Command_commanded lba quiet false size
    { f with attempts := f.attempts + 1, dma := f.dma.fill 0 0 size }
    (replies f.attempts) (fun q => hq q _) h
  dsimp only [Fdc.table] at hs ⊢
  generalize fdc0Command (replies f.attempts) (cylinderOf (f.drives f.dsel).table lba)
    (headOf (f.drives f.dsel).table lba) (sectorOf (f.drives f.dsel).table lba) size false
    { f with attempts := f.attempts + 1, dma := f.dma.fill 0 0 size } = result at hs ⊢
  obtain ⟨r, f'⟩ := result
  cases r with
  | some e =>
    exact ⟨hs.dsel, hs.tables, hs.others, hs.media, fun _ => hs.memory, fun hr => (by cases hr),
      fun hr => (by cases hr), hs.outside, hs.still, hs.issued⟩
  | none =>
    refine ⟨hs.dsel, hs.tables, hs.others, hs.media, ?_, fun hr hw => ⟨f'.dma, ?_, ?_⟩,
      fun _ hw => Bool.noConfusion hw, hs.outside, hs.still, hs.issued⟩
    · rintro (hr | hw)
      · exact absurd rfl hr
      · exact Bool.noConfusion hw
    · change f'.memory.copy address f'.dma 0 size = _
      rw [hs.memory]
    · exact hs.fetched hr hw

theorem fdc0Transfer_attempted :
    Attempted quiet write lba size address f
      (fdc0Transfer replies write (cylinderOf f.table lba) (headOf f.table lba) (sectorOf f.table lba)
        address size f).1
      (fdc0Transfer replies write (cylinderOf f.table lba) (headOf f.table lba) (sectorOf f.table lba)
        address size f).2 := by
  cases write with
  | false => exact fdc0Read_attempted hq h
  | true => exact fdc0Write_attempted hq h

end

/-! ## The transfer -/

variable {offset requested done : Nat} {start : Fdc}

/-- Where the loop stands that started from `start`. -/
structure Standing (quiet : Prop) (write : Bool) (offset address requested : Nat) (start : Fdc)
    (done : Nat) (f : Fdc) : Prop where
  dsel : f.dsel = start.dsel
  tables : ∀ k, (f.drives k).table = (start.drives k).table
  others : ∀ k, k ≠ start.dsel → f.media k = start.media k
  progress : Progress write quiet offset address requested
    (linear start.table (start.media start.dsel)) start.memory done
    (linear start.table (f.media start.dsel)) f.memory
  whole : done % 512 = 0
  inside : done = 0 ∨ offset + done ≤ start.table.size
  issued : ∀ c ∈ f.issued, c ∈ start.issued ∨ c.Inside

theorem Standing.table (h : Standing quiet write offset address requested start done f) :
    f.table = start.table := by
  rw [Fdc.table, h.dsel, h.tables]
  rfl

theorem Range.inside (h : Range t lba size) : lba * 512 + size ≤ t.size := by
  have hs := h.known.sectorsPerTrack
  have hh := h.known.heads
  have hlt : lba / t.sectorsPerTrack < t.heads * t.cylinders := by
    have hc := h.cylinder
    unfold cylinderOf at hc
    rw [mul_comm t.heads, ← Nat.div_div_eq_div_mul,
      Nat.div_lt_iff_lt_mul (by omega : 0 < t.heads)] at hc
    rwa [mul_comm]
  have htrack : t.sectorsPerTrack * (lba / t.sectorsPerTrack + 1) ≤
      t.sectorsPerTrack * (t.heads * t.cylinders) := Nat.mul_le_mul_left _ hlt
  have he := Nat.div_add_mod lba t.sectorsPerTrack
  have hm := Nat.mod_lt lba (by omega : 0 < t.sectorsPerTrack)
  have hn := h.track
  unfold FloppyTable.size
  rw [h.known.sectorSize, mul_assoc, mul_assoc]
  rw [mul_add, mul_one] at htrack
  omega

theorem Range.single (h : Range t lba size) : Range t lba 512 := by
  have hs := h.known.sectorsPerTrack
  have hm := Nat.mod_lt lba (by omega : 0 < t.sectorsPerTrack)
  exact ⟨h.known, h.cylinder, by omega, rfl, by omega⟩

theorem Standing.failed {e : DeviceError} (h : Standing quiet write offset address requested start done f)
    (hlba : lba * 512 = offset + done) (hreq : done + size ≤ requested)
    (ha : Attempted quiet write lba size (address + done) f (some e) f') :
    Standing quiet write offset address requested start done f' := by
  have hd := h.dsel
  have ho := ha.outside
  have hs := ha.still
  have hm := ha.media
  rw [h.table, hd] at ho
  rw [hd] at hs hm
  refine ⟨ha.dsel.trans hd, fun k => (ha.tables k).trans (h.tables k),
    fun k hk => (ha.others k (hd ▸ hk)).trans (h.others k hk), ?_, h.whole, h.inside,
    fun c hc => (ha.issued c hc).elim (h.issued c) Or.inr⟩
  rw [ha.memory (Or.inl (by simp))]
  cases write with
  | false =>
    rw [hm rfl]
    exact h.progress
  | true => exact h.progress.disturbed (fun k hk => ho rfl k (by omega)) fun q => by rw [hs q (by simp)]

theorem Standing.succeeded (h : Standing quiet write offset address requested start done f)
    (hlba : lba * 512 = offset + done) (hreq : done + size ≤ requested) (hr : Range start.table lba size)
    (ha : Attempted quiet write lba size (address + done) f none f') :
    Standing quiet write offset address requested start (done + size) f' := by
  have hd := h.dsel
  have hfetched := ha.fetched rfl
  have hwritten := ha.written rfl
  have hm := ha.media
  rw [h.table, hd] at hfetched hwritten
  rw [hd] at hm
  have hin := hr.inside
  have hwhole := hr.whole
  refine ⟨ha.dsel.trans hd, fun k => (ha.tables k).trans (h.tables k),
    fun k hk => (ha.others k (hd ▸ hk)).trans (h.others k hk), ?_, by have := h.whole; omega,
    Or.inr (by omega), fun c hc => (ha.issued c hc).elim (h.issued c) Or.inr⟩
  cases write with
  | false =>
    obtain ⟨b, hmem, hb⟩ := hfetched rfl
    rw [hm rfl, hmem]
    exact h.progress.readUnit hreq fun k hk => by rw [hb k hk, hlba]
  | true =>
    obtain ⟨b, hmedia, hb⟩ := hwritten rfl
    rw [hmedia, ha.memory (Or.inr rfl), hlba]
    exact h.progress.writeUnit hreq hb

theorem retryLoop_standing (hq : quiet → ∀ k, (replies k).moved = 0)
    (hlba : lba * 512 = offset + done) {r' : Option DeviceError} {size' : Nat} :
    ∀ (n : Nat) (r : Option DeviceError) (size : Nat) (f : Fdc), (r = none → 0 < n) →
      Range start.table lba size → done + size ≤ requested →
      Standing quiet write offset address requested start done f →
      retryLoop (fdc0Transfer replies write (cylinderOf start.table lba) (headOf start.table lba)
        (sectorOf start.table lba) (address + done)) 512 n r size f = (r', size', f') →
      (r' ≠ none → Standing quiet write offset address requested start done f') ∧
        (r' = none → 0 < size' ∧ Standing quiet write offset address requested start (done + size') f') := by
  intro n
  induction n with
  | zero =>
    intro r size f hr hrange hreq h he
    cases he
    exact ⟨fun _ => h, fun hnone => absurd (hr hnone) (lt_irrefl 0)⟩
  | succ n ih =>
    intro r size f hr hrange hreq h he
    have ha := @fdc0Transfer_attempted lba quiet write size f replies (address + done) hq
      (by rwa [h.table])
    rw [h.table] at ha
    rw [retryLoop] at he
    generalize fdc0Transfer replies write (cylinderOf start.table lba) (headOf start.table lba)
      (sectorOf start.table lba) (address + done) size f = result at ha he
    obtain ⟨r1, f1⟩ := result
    cases r1 with
    | none =>
      cases he
      exact ⟨fun hne => absurd rfl hne, fun _ => ⟨hrange.pos, h.succeeded hlba hreq hrange ha⟩⟩
    | some e =>
      have h1 := h.failed hlba hreq ha
      by_cases hm : e = .mediaChanged
      · subst hm
        cases he
        exact ⟨fun _ => h1, fun hnone => by cases hnone⟩
      refine ih (some e) 512 f1 (fun hnone => by cases hnone) hrange.single ?_ h1 ?_
      · have := hrange.pos
        have := hrange.whole
        omega
      · rw [← he]
        cases e <;> first | rfl | exact absurd rfl hm

/-- What a call on drive `dsel` reports that began in `start`; the size of the medium is
that of the table when the call returns. -/
structure FloppyReported (quiet : Prop) (write : Bool) (dsel offset address requested : Nat)
    (start : Fdc) (t : FloppyReport) : Prop where
  whole : t.size % 512 = 0
  progress : Progress write quiet offset address requested
    (linear (t.fdc.drives dsel).table (start.media dsel)) start.memory t.size
    (linear (t.fdc.drives dsel).table (t.fdc.media dsel)) t.fdc.memory
  others : ∀ k, k ≠ dsel → t.fdc.media k = start.media k
  inside : ∀ c ∈ t.fdc.issued, c ∈ start.issued ∨ c.Inside
  complete : t.error = none → t.size = min requested ((t.fdc.drives dsel).table.size - offset)

theorem Standing.reported {e : Option DeviceError}
    (h : Standing quiet write offset address requested start done f)
    (hc : e = none → done = min requested (start.table.size - offset)) :
    FloppyReported quiet write start.dsel offset address requested start ⟨e, done, f⟩ where
  whole := h.whole
  progress := by
    rw [h.tables]
    exact h.progress
  others := h.others
  inside := h.issued
  complete he := by
    rw [h.tables]
    exact hc he

theorem floppyLoop_reported (hq : quiet → ∀ k, (replies k).moved = 0) (hk : start.table.Known)
    (ho : offset % 512 = 0) (hr : requested % 512 = 0) :
    ∀ (fuel done : Nat) (f : Fdc), requested - done ≤ fuel →
      Standing quiet write offset address requested start done f →
      FloppyReported quiet write start.dsel offset address requested start
        (floppyLoop replies start.table write requested fuel (offset + done) (address + done) done f) := by
  intro fuel
  induction fuel with
  | zero =>
    intro done f hfuel h
    have hle := h.progress.le
    have hin := h.inside
    exact h.reported fun _ => by omega
  | succ fuel ih =>
    intro done f hfuel h
    have hle := h.progress.le
    have hin := h.inside
    have hw := h.whole
    rw [floppyLoop]
    split
    · dsimp only
      rw [hk.sectorSize]
      split
      · rename_i hpast
        refine h.reported fun _ => ?_
        have hs := hk.sectorsPerTrack
        have hh := hk.heads
        rw [Nat.le_div_iff_mul_le (mul_pos (by omega) (by omega))] at hpast
        have hsize : start.table.size =
            512 * (start.table.cylinders * (start.table.heads * start.table.sectorsPerTrack)) := by
          rw [FloppyTable.size, hk.sectorSize]
          ring
        omega
      · have hm := Nat.mod_lt ((offset + done) / 512)
          (by have := hk.sectorsPerTrack; omega : 0 < start.table.sectorsPerTrack)
        have hrange : Range start.table ((offset + done) / 512)
            (min (512 * (start.table.sectorsPerTrack -
              ((offset + done) / 512 % start.table.sectorsPerTrack + 1 - 1))) (requested - done)) :=
          ⟨hk, by unfold cylinderOf; omega, by omega, by omega, by omega⟩
        generalize he : retryLoop _ 512 5 none _ f = result
        obtain ⟨r, n, f'⟩ := result
        have hstep := retryLoop_standing hq (by omega) 5 none _ f (fun _ => by omega) hrange
          (by omega) h he
        cases r with
        | some e => exact (hstep.1 (by simp)).reported fun h => by cases h
        | none =>
          obtain ⟨hn, hs⟩ := hstep.2 rfl
          have hnext := ih (done + n) f' (by omega) hs
          rwa [← add_assoc, ← add_assoc] at hnext
    · exact h.reported fun _ => by omega

theorem Standing.initial (start : Fdc) : Standing quiet write offset address requested start 0 start where
  dsel := rfl
  tables _ := rfl
  others _ _ := rfl
  progress := Progress.start
  whole := rfl
  inside := Or.inl rfl
  issued _ hc := Or.inl hc

theorem doTransfer_reported (hq : quiet → ∀ k, (replies k).moved = 0) (f : Fdc) :
    FloppyReported quiet write f.dsel offset address requested f
      (doTransfer replies offset requested address write f) := by
  have hstop {e : DeviceError} : FloppyReported quiet write f.dsel offset address requested f
      ⟨some e, 0, f⟩ := (Standing.initial f).reported fun h => by cases h
  unfold doTransfer
  dsimp only
  split
  · exact hstop
  rename_i hzero
  have hk := f.table.known fun h => hzero (Or.inl h)
  have hmask (n : Nat) : n &&& (f.table.sectorSize - 1) = n % 512 := by
    rw [hk.sectorSize]
    exact Nat.and_two_pow_sub_one_eq_mod n 9
  rw [hmask, hmask]
  split
  · exact hstop
  split
  · exact hstop
  · exact floppyLoop_reported hq hk (by omega) (by omega) requested 0 f (by omega) (Standing.initial f)

/-! ## Preparing -/

structure Prepared (f f' : Fdc) : Prop where
  dsel : f'.dsel = f.dsel
  memory : f'.memory = f.memory
  media : f'.media = f.media
  issued : ∀ c ∈ f'.issued, c ∈ f.issued ∨ c.Inside

theorem Prepared.refl (f : Fdc) : Prepared f f := ⟨rfl, rfl, rfl, fun _ hc => Or.inl hc⟩

theorem Prepared.trans {f1 f2 f3 : Fdc} (h : Prepared f1 f2) (h' : Prepared f2 f3) : Prepared f1 f3 :=
  ⟨h'.dsel.trans h.dsel, h'.memory.trans h.memory, h'.media.trans h.media,
    fun c hc => (h'.issued c hc).elim (h.issued c) Or.inr⟩

theorem Prepared.setDrive (h : Prepared f f') (g : DriveData → DriveData) : Prepared f (f'.setDrive g) :=
  ⟨h.dsel, h.memory, h.media, h.issued⟩

theorem firstSectors (hk : t.Known) : Range t 0 1024 where
  known := hk
  cylinder := by
    have := hk.cylinders
    rw [cylinderOf, Nat.zero_div]
    omega
  pos := by decide
  whole := rfl
  track := by
    have := hk.sectorsPerTrack
    rw [Nat.zero_mod]
    omega

theorem fdc0Read_boot (hk : f.table.Known) :
    Prepared f (fdc0Read replies 0 0 1 1024 .boot f).2 ∧
      (fdc0Read replies 0 0 1 1024 .boot f).2.table = f.table := by
  have h0 : cylinderOf f.table 0 = 0 ∧ headOf f.table 0 = 0 ∧ sectorOf f.table 0 = 1 := by
    simp [cylinderOf, headOf, sectorOf]
  unfold fdc0Read
  dsimp only
  split
  · exact ⟨⟨rfl, rfl, rfl, fun _ hc => Or.inl hc⟩, rfl⟩
  have hs := @fdc0Command_commanded 0 ((replies f.attempts).moved = 0) false 1024
    { f with attempts := f.attempts + 1, dma := f.dma.fill 0 0 1024 }
    (replies f.attempts) id (firstSectors hk)
  dsimp only [Fdc.table] at hs h0 ⊢
  rw [h0.1, h0.2.1, h0.2.2] at hs
  generalize fdc0Command (replies f.attempts) 0 0 1 1024 false
    { f with attempts := f.attempts + 1, dma := f.dma.fill 0 0 1024 } = result at hs ⊢
  obtain ⟨r, f'⟩ := result
  have hmedia : f'.media = f.media := by
    funext k
    by_cases hd : k = f.dsel
    · rw [hd]
      exact hs.media rfl
    · exact hs.others k hd
  have htable : (f'.drives f'.dsel).table = (f.drives f.dsel).table := by
    rw [hs.tables, hs.dsel]
  cases r with
  | some e | none => exact ⟨⟨hs.dsel, hs.memory, hmedia, hs.issued⟩, htable⟩

theorem setDrive_table (f : Fdc) (g : DriveData → DriveData) :
    (f.setDrive g).table = (g (f.drives f.dsel)).table := by
  unfold Fdc.table Fdc.setDrive
  dsimp only
  rw [update_self]

theorem tryTables_prepared {ts : List FloppyTable} (hts : ∀ t ∈ ts, t.Known) :
    ∀ (r directive : Option DeviceError) (f : Fdc),
      Prepared f (tryTables replies ts r directive f).2.2 := by
  induction ts with
  | nil => intro r directive f; exact Prepared.refl f
  | cons t ts ih =>
    intro r directive f
    have hset := (Prepared.refl f).setDrive fun d => { d with table := t, mediaChanged := false }
    have hknown : (f.setDrive fun d => { d with table := t, mediaChanged := false }).table.Known := by
      rw [setDrive_table]
      exact hts t (by simp)
    rw [tryTables]
    generalize f.setDrive (fun d => { d with table := t, mediaChanged := false }) = f0 at hset hknown ⊢
    have h1 := @fdc0Read_boot f0 replies hknown
    generalize fdc0Read replies 0 0 1 1024 .boot f0 = first at h1 ⊢
    obtain ⟨r1, f1⟩ := first
    cases r1 with
    | none => exact hset.trans h1.1
    | some e =>
      dsimp only at h1 ⊢
      have h2 := @fdc0Read_boot f1 replies (by rwa [h1.2])
      generalize fdc0Read replies 0 0 1 1024 .boot f1 = second at h2 ⊢
      obtain ⟨r2, f2⟩ := second
      cases r2 with
      | none => exact (hset.trans h1.1).trans h2.1
      | some e2 =>
        exact ((hset.trans h1.1).trans h2.1).trans
          (ih (fun t ht => hts t (.tail _ ht)) _ _ f2)

theorem tableDefault_known : ∀ t ∈ tableDefault, t.Known := by
  intro t ht
  refine t.known ?_
  simp only [tableDefault, mem_cons, not_mem_nil, or_false] at ht
  rcases ht with rfl | rfl <;> decide

theorem probeMedium_prepared (f : Fdc) : Prepared f (probeMedium replies f).2 := by
  unfold probeMedium
  dsimp only
  have h := ((Prepared.refl f).setDrive fun d => { d with type := d.type ||| 0x1000 }).trans
    (@tryTables_prepared replies _ tableDefault_known none none _)
  generalize tryTables replies tableDefault none none
    (f.setDrive fun d => { d with type := d.type ||| 0x1000 }) = result at h ⊢
  obtain ⟨r, directive, f'⟩ := result
  cases r with
  | some e | none => exact ⟨h.dsel, h.memory, h.media, h.issued⟩

/-- Preparing moves no data of the caller; it selects the drive where it succeeds. -/
theorem prepareTransfer_prepared (diskChange : Bool) (dsel : Int) (f : Fdc) :
    Prepared { f with dsel := (prepareTransfer replies diskChange dsel f).2.dsel }
        (prepareTransfer replies diskChange dsel f).2 ∧
      ((prepareTransfer replies diskChange dsel f).1 = none →
        (prepareTransfer replies diskChange dsel f).2.dsel = dsel.toNat) := by
  unfold prepareTransfer
  split
  · exact ⟨⟨rfl, rfl, rfl, fun _ hc => Or.inl hc⟩, fun h => by cases h⟩
  split
  · exact ⟨⟨rfl, rfl, rfl, fun _ hc => Or.inl hc⟩, fun h => by cases h⟩
  dsimp only
  split
  · have h := @probeMedium_prepared replies { f with dsel := dsel.toNat }
    exact ⟨⟨rfl, h.memory, h.media, h.issued⟩, fun _ => h.dsel⟩
  obtain ⟨drives, hf, -⟩ := fdc0MediaChanged_frame diskChange { f with dsel := dsel.toNat }
  generalize fdc0MediaChanged diskChange { f with dsel := dsel.toNat } = changed at hf ⊢
  obtain ⟨b, f1⟩ := changed
  subst hf
  cases b with
  | false => exact ⟨⟨rfl, rfl, rfl, fun _ hc => Or.inl hc⟩, fun _ => rfl⟩
  | true =>
    have h := @probeMedium_prepared replies { f with dsel := dsel.toNat, drives }
    exact ⟨⟨rfl, h.memory, h.media, h.issued⟩, fun _ => h.dsel⟩

theorem FloppyTable.size_le (t : FloppyTable) : t.size ≤ 0x7FFFFFFF := by
  rcases t.sound with ⟨h, -⟩ | ⟨h512, -, hc, -, hh, -, hs⟩
  · rw [FloppyTable.size, h]
    simp
  · rw [FloppyTable.size, h512]
    calc 512 * t.sectorsPerTrack * t.heads * t.cylinders ≤ 512 * 63 * 2 * 127 := by gcongr
      _ ≤ 0x7FFFFFFF := by decide

theorem FloppyReported.stopped {e : Option DeviceError} {dsel : Nat} (hm : f'.memory = f.memory)
    (hd : f'.media = f.media) (hi : ∀ c ∈ f'.issued, c ∈ f.issued ∨ c.Inside)
    (hc : e = none → 0 = min requested ((f'.drives dsel).table.size - offset)) :
    FloppyReported quiet write dsel offset address requested f ⟨e, 0, f'⟩ where
  whole := rfl
  progress := by
    rw [hm, hd]
    exact Progress.start
  others k _ := congrFun hd k
  inside := hi
  complete := hc

/-- Every call, for every geometry, every state of the driver and all replies. -/
theorem floppyTransfer_reported (hq : quiet → ∀ k, (replies k).moved = 0) (entry : Entry) (dsel : Int)
    (offset size address : Nat) (write : Bool) (f : Fdc) :
    FloppyReported quiet write dsel.toNat offset address size f
      (floppyTransfer replies entry dsel offset size address write f) := by
  unfold floppyTransfer
  split
  · exact FloppyReported.stopped rfl rfl (fun _ hc => Or.inl hc) fun _ => by
      have := FloppyTable.size_le (f.drives dsel.toNat).table
      omega
  split
  · exact FloppyReported.stopped rfl rfl (fun _ hc => Or.inl hc) fun h => by cases h
  have hp := @prepareTransfer_prepared replies entry.diskChange dsel f
  generalize prepareTransfer replies entry.diskChange dsel f = prepared at hp ⊢
  obtain ⟨r, f1⟩ := prepared
  obtain ⟨hp, hd⟩ := hp
  cases r with
  | some e => exact FloppyReported.stopped hp.memory hp.media hp.issued fun h => by cases h
  | none =>
    have h := @doTransfer_reported quiet write replies address offset size hq f1
    rw [hd rfl] at h
    have hmem : f1.memory = f.memory := hp.memory
    have hmedia : f1.media = f.media := hp.media
    refine ⟨h.whole, ?_, fun k hk => (h.others k hk).trans (congrFun hmedia k),
      fun c hc => (h.inside c hc).elim (hp.issued c) Or.inr, h.complete⟩
    rw [← hmem, ← hmedia]
    exact h.progress

end Dancy.Block.Floppy
