import Dancy.Lib.Bytes
import Dancy.Lib.Pieces
import Dancy.Lib.Prog
import Dancy.Vfs.FatIo
import Mathlib.Tactic.MkIffOfInductiveProp

/-!
# Paths of the FAT driver (`common/fat.c`)

`fill_path_buffer` takes a path apart into names of eleven bytes: eight of
the name, three of the extension. A write outside of `name[12]` or of the 256
entries is an error of its own here.
-/

namespace Dancy.Fat

open Lib
open FatVfs (FatError)

/-- How `fill_path_buffer` ends: with an erroneous path, or, if it ever did, with
a write outside of its arrays. -/
inductive PathError where
  | invalid
  | outside

/-- `struct fat_name`. -/
structure FatName where
  name : Vector UInt8 12
  length : Nat
  isDir : Bool

/-- An entry that `memset` has cleared. -/
def FatName.zero : FatName := ⟨Vector.replicate 12 0, 0, false⟩

abbrev PathBuffer := Vector FatName 256

/-- The path buffer, `entries` and `state`. -/
structure PathFill where
  path : PathBuffer
  (entries state : Nat)

/-! ## The loop over the characters -/

/-- Lower-case letters become upper-case letters. -/
def upper (c : UInt8) : UInt8 := if 0x61 ≤ c ∧ c ≤ 0x7A then c - 32 else c

/-- `< > : " \ | ? *` -/
def forbidden (c : UInt8) : Bool :=
  c = 0x3C || c = 0x3E || c = 0x3A || c = 0x22 || c = 0x5C || c = 0x7C || c = 0x3F || c = 0x2A

/-- `path[i] = e`. -/
def PathFill.put (f : PathFill) (i : Nat) (e : FatName) : Except PathError PathFill :=
  if h : i < 256 then .ok { f with path := f.path.set i e } else .error .outside

/-- `path[i]`. -/
def PathFill.get (f : PathFill) (i : Nat) : Except PathError FatName :=
  if h : i < 256 then .ok f.path[i] else .error .outside

/-- `name[i] = c`. -/
def setChar (name : Vector UInt8 12) (i : Nat) (c : UInt8) : Except PathError (Vector UInt8 12) :=
  if h : i < 12 then .ok (name.set i c) else .error .outside

def PathFill.addChar (f : PathFill) (c : UInt8) : Except PathError PathFill := do
  let e ← f.get f.entries
  if e.length > 11 then .error .invalid
  else
    let name ← setChar e.name e.length c
    f.put f.entries { e with name := name, length := e.length + 1 }

def PathFill.currentDirectory (f : PathFill) : Except PathError PathFill :=
  PathFill.put { f with state := 0 } f.entries .zero

def PathFill.parentDirectory (f : PathFill) : Except PathError PathFill := do
  let f ← PathFill.put { f with state := 0 } f.entries .zero
  if f.entries > 0 then PathFill.put { f with entries := f.entries - 1 } (f.entries - 1) .zero
  else .ok f

def PathFill.closeEntry (f : PathFill) : Except PathError PathFill := do
  let e ← f.get f.entries
  if e.length > 0 then
    let f ← f.put f.entries { e with isDir := true }
    PathFill.put { f with entries := f.entries + 1, state := 0 } (f.entries + 1) .zero
  else .ok { f with state := 0 }

/-- The states of the loop; `last` tells that the string ends after `c`. -/
def PathFill.advance (f : PathFill) (c : UInt8) (last : Bool) : Except PathError PathFill :=
  if f.state = 0 ∧ c = 0x2E then
    if last then f.currentDirectory else .ok { f with state := 1 }
  else if f.state = 1 ∧ c = 0x2F then f.currentDirectory
  else if f.state = 1 ∧ c = 0x2E then
    if last then f.parentDirectory else .ok { f with state := 2 }
  else if f.state = 2 ∧ c = 0x2F then f.parentDirectory
  else if c = 0x2F then f.closeEntry
  else .ok { f with state := 3, entries := if last then f.entries + 1 else f.entries }

def PathFill.char (f : PathFill) (c : UInt8) (last : Bool) : Except PathError PathFill :=
  if c ≤ 0x20 ∨ c > 0x7E ∨ f.entries ≥ 255 then .error .invalid
  else if forbidden (upper c) then .error .invalid
  else do
    let f ← if upper c ≠ 0x2F then f.addChar (upper c) else .ok f
    f.advance (upper c) last

/-- The first loop of `fill_path_buffer`. -/
def PathFill.chars (f : PathFill) : List UInt8 → Except PathError PathFill
  | [] => .ok f
  | c :: rest => do
      let f ← f.char c rest.isEmpty
      f.chars rest

/-! ## The loop over the entries -/

/-- The position of the last period, from `j` down, or zero. -/
def lastPeriod (name : Vector UInt8 12) : Nat → Nat
  | 0 => 0
  | j + 1 => if name[j + 1]?.getD 0 = 0x2E then j + 1 else lastPeriod name j

/-- The extension after the period at `j` is moved to its place. -/
def moveExtension (name : Vector UInt8 12) (j : Nat) : Except PathError (Vector UInt8 12) := do
  let ext0 := name[j + 1]?.getD 0
  let ext1 := name[j + 2]?.getD 0
  let ext2 := name[j + 3]?.getD 0
  let name ← setChar name j 0
  let name ← setChar name (j + 1) 0
  let name ← setChar name (j + 2) 0
  let name ← setChar name (j + 3) 0
  let name ← setChar name 8 ext0
  let name ← setChar name 9 ext1
  setChar name 10 ext2

/-- Zeros become spaces, and a zero ends the name. -/
def padName (name : Vector UInt8 12) : Vector UInt8 12 :=
  Vector.ofFn fun k => if k.val = 11 then 0 else if name[k.val] = 0 then 0x20 else name[k.val]

/-- The eight bytes of the name are spaces and periods. -/
def onlyPeriods (name : Vector UInt8 12) : Bool :=
  (name.toList.take 8).all fun c => c = 0x20 || c = 0x2E

/-- The names of `check_reserved_name`, without the space after them. -/
def reservedNames : List (List UInt8) :=
  [[0x41, 0x55, 0x58], [0x43, 0x4F, 0x4D, 0x31], [0x43, 0x4F, 0x4D, 0x32], [0x43, 0x4F, 0x4D, 0x33],
    [0x43, 0x4F, 0x4D, 0x34], [0x43, 0x4F, 0x4D, 0x35], [0x43, 0x4F, 0x4D, 0x36],
    [0x43, 0x4F, 0x4D, 0x37], [0x43, 0x4F, 0x4D, 0x38], [0x43, 0x4F, 0x4D, 0x39],
    [0x43, 0x4F, 0x4E], [0x4C, 0x50, 0x54, 0x31], [0x4C, 0x50, 0x54, 0x32], [0x4C, 0x50, 0x54, 0x33],
    [0x4C, 0x50, 0x54, 0x34], [0x4C, 0x50, 0x54, 0x35], [0x4C, 0x50, 0x54, 0x36],
    [0x4C, 0x50, 0x54, 0x37], [0x4C, 0x50, 0x54, 0x38], [0x4C, 0x50, 0x54, 0x39],
    [0x4E, 0x55, 0x4C], [0x50, 0x52, 0x4E]]

def checkReservedName (name : Vector UInt8 12) : Bool :=
  if name[8] ≠ 0x20 then false
  else reservedNames.any fun r => (r ++ [0x20]).isPrefixOf name.toList

/-- The name of an entry becomes a name of eleven bytes. -/
def splitEntry (e : FatName) : Except PathError FatName :=
  let j := lastPeriod e.name 11
  if j > 8 ∨ (j = 0 ∧ e.length > 8) then .error .invalid
  else if j ≠ 0 ∧ e.length - j > 4 then .error .invalid
  else do
    let name ← if j ≠ 0 then moveExtension e.name j else .ok e.name
    if onlyPeriods (padName name) then .error .invalid
    else if checkReservedName (padName name) then .error .invalid
    else .ok { e with name := padName name }

/-- The second loop, from `i` on, with the entries left. -/
def PathFill.split (f : PathFill) : Nat → Nat → Except PathError PathFill
  | 0, _ => .ok f
  | left + 1, i => do
      let e ← f.get i
      let e ← splitEntry e
      let f ← f.put i e
      f.split left (i + 1)

/-- `fill_path_buffer`: the path buffer and `path_entries`. -/
def fillPathBuffer (path : PathBuffer) (name : List UInt8) : Except PathError (PathBuffer × Nat) := do
  let f ← PathFill.put ⟨path, 0, 0⟩ 0 .zero
  let f ← f.chars name
  let f ← f.split f.entries 0
  if f.entries = 0 then .error .invalid else .ok (f.path, f.entries)

/-- What the functions outside of the driver answer. Calls are numbered. -/
structure Device where
  /-- `fat_get_size`: the size of a block, and the number of blocks. -/
  size : Option (Nat × Nat)
  /-- Whether `fat_io_read` succeeds, for a block. -/
  readOk : Nat → Nat → Bool
  /-- Whether `fat_io_write` succeeds, for a block. -/
  writeOk : Nat → Nat → Bool
  /-- What is left in the buffer, or on the device, if it does not. -/
  noise : Nat → Bytes
  /-- Whether `malloc` succeeds. -/
  memory : Nat → Bool
  /-- `fat_get_time`. -/
  time : Nat → Option Bytes

/-! ## The numbers of a volume -/

inductive FatType where
  | fat12
  | fat16
  | fat32
deriving DecidableEq

/-- The numbers of the first sector, and the size of the device. -/
structure Geometry where
  (blockSize blockTotal bytesPerSector clusterSectors reservedSectors tables : Nat)
  (directoryEntries totalSectors tableSectors rootCluster infoSector : Nat)

namespace Geometry

variable (g : Geometry)

def ioMul : Nat := g.bytesPerSector / g.blockSize

def directorySectors : Nat := g.directoryEntries * 32 / g.bytesPerSector

def tableSize : Nat := g.tableSectors * g.bytesPerSector

/-- The first sector after the tables and the fixed root directory. -/
def dataStart : Nat := g.reservedSectors + g.tableSectors * g.tables + g.directorySectors

def dataSectors : Nat := g.totalSectors - g.dataStart

def clusters : Nat := g.dataSectors / g.clusterSectors

/-- `fs_last_table_sector`. -/
def lastTableSector : Nat := g.reservedSectors + g.tables * g.tableSectors - 1

def rootSector : Nat := g.reservedSectors + g.tables * g.tableSectors

def clusterSize : Nat := g.bytesPerSector * g.clusterSectors

def type : FatType :=
  if g.clusters < 4085 then .fat12 else if g.clusters < 65525 then .fat16 else .fat32

/-- The tests of `read_bios_parameter_block` on these numbers; all of them
end the same way. -/
@[mk_iff]
structure Accepted : Prop where
  blockSize : 1 ≤ g.blockSize ∧ g.blockSize ≤ 4096
  blockPower : g.blockSize &&& (g.blockSize - 1) = 0
  blockTotal : g.blockTotal ≤ 0xFFFFFFFF
  bytes : 512 ≤ g.bytesPerSector ∧ g.bytesPerSector ≤ 4096
  bytesPower : g.bytesPerSector &&& (g.bytesPerSector - 1) = 0
  blockFits : g.blockSize ≤ g.bytesPerSector
  sectors : 1 ≤ g.clusterSectors ∧ g.clusterSectors ≤ 128
  sectorsPower : g.clusterSectors &&& (g.clusterSectors - 1) = 0
  reserved : g.reservedSectors ≠ 0
  tables : g.tables = 1 ∨ g.tables = 2
  entries : g.directoryEntries * 32 % g.bytesPerSector = 0
  total : g.totalSectors / g.ioMul ≤ g.blockTotal
  tableSectors : g.tableSectors ≤ 0x40000000 / g.bytesPerSector
  data : g.dataStart + g.clusterSectors ≤ g.totalSectors
  totalSectors : g.totalSectors < 0x100000000
  clusters : g.clusters ≠ 0
  fixed : g.type ≠ .fat32 → g.directoryEntries ≠ 0 ∧ g.tableSize ≤ 0x20000
  table12 : g.type = .fat12 → ((g.clusters + 2) * 3 + 1) / 2 ≤ g.tableSize
  table16 : g.type = .fat16 → (g.clusters + 2) * 2 ≤ g.tableSize
  table32 : g.type = .fat32 → g.directoryEntries = 0 ∧ 2 ≤ g.rootCluster ∧
    g.rootCluster - 2 < g.clusters ∧ (g.clusters + 2) % 0x100000000 ≤ 0x0FFFFFF8 ∧
    (g.clusters + 2) % 0x100000000 * 4 ≤ g.tableSize ∧
    g.infoSector ≠ 0 ∧ g.infoSector < g.reservedSectors

instance : Decidable g.Accepted := decidable_of_iff' _ (accepted_iff g)

end Geometry

/-- The jump instruction and the boot signature. -/
def bootSector (buf : Bytes) : Bool :=
  (if buf 0 = 0xEB then
      !((buf 1).toNat < 0x3C || (0x80 ≤ (buf 1).toNat && (buf 1).toNat ≠ 0xFE))
    else if buf 0 = 0xE9 then
      !(buf.word 1 < 0x3C || (0x1FD ≤ buf.word 1 && buf.word 1 ≠ 0xFFFD))
    else false) && buf.word 510 = 0xAA55

def Geometry.common (blockSize blockTotal : Nat) (buf : Bytes) : Geometry where
  blockSize := blockSize
  blockTotal := blockTotal
  bytesPerSector := buf.word 11
  clusterSectors := (buf 13).toNat
  reservedSectors := buf.word 14
  tables := (buf 16).toNat
  directoryEntries := buf.word 17
  totalSectors := if buf.word 19 ≠ 0 then buf.word 19 else buf.dword 32
  tableSectors := if buf.word 22 ≠ 0 then buf.word 22 else buf.dword 36
  rootCluster := 0
  infoSector := 0

def Geometry.boot (blockSize blockTotal : Nat) (buf : Bytes) : Geometry :=
  let g := Geometry.common blockSize blockTotal buf
  if g.type = .fat32 then { g with rootCluster := buf.dword 44, infoSector := buf.word 48 } else g

/-- The tests on bytes that do not become a number of the volume. -/
def bootFields (type : FatType) (buf : Bytes) : Bool :=
  !(buf.word 19 ≠ 0 && buf.dword 32 ≠ 0 && buf.dword 32 ≠ buf.word 19) &&
    (type ≠ .fat32 || (buf.word 19 = 0 && buf.word 22 = 0 && buf.word 42 = 0))

/-- A volume that `fat_create` accepts, and the device it is on. -/
structure Volume extends Geometry where
  device : Device
  accepted : toGeometry.Accepted

/-- The tests and values of `read_bios_parameter_block`. -/
def readBiosParameterBlock (device : Device) (blockSize blockTotal : Nat) (buf : Bytes) :
    Option Volume :=
  let g := Geometry.boot blockSize blockTotal buf
  if h : g.Accepted then
    if bootSector buf && bootFields g.type buf then some { g with device := device, accepted := h }
    else none
  else none

/-! ## Facts about accepted numbers -/

section Facts

variable (v : Volume)

theorem ioMul_mul_blockSize : v.ioMul * v.blockSize = v.bytesPerSector := by
  obtain ⟨hb, -⟩ := v.accepted.blockSize
  obtain ⟨hs, -⟩ := v.accepted.bytes
  obtain ⟨i, hi⟩ := (Nat.and_sub_one_eq_zero_iff_isPowerOfTwo (by omega)).mp v.accepted.blockPower
  obtain ⟨j, hj⟩ := (Nat.and_sub_one_eq_zero_iff_isPowerOfTwo (by omega)).mp v.accepted.bytesPower
  have hle : 2 ^ i ≤ 2 ^ j := by
    rw [← hi, ← hj]
    exact v.accepted.blockFits
  have hdvd : v.blockSize ∣ v.bytesPerSector := by
    rw [hi, hj]
    exact Nat.pow_dvd_pow 2 ((Nat.pow_le_pow_iff_right (by omega)).mp hle)
  exact Nat.div_mul_cancel hdvd

theorem bytesPerSector_pos : 0 < v.bytesPerSector := by
  have := v.accepted.bytes
  omega

theorem bytesPerSector_pow : ∃ k, 9 ≤ k ∧ k ≤ 12 ∧ v.bytesPerSector = 2 ^ k := by
  obtain ⟨hlow, hhigh⟩ := v.accepted.bytes
  obtain ⟨k, hk⟩ := (Nat.and_sub_one_eq_zero_iff_isPowerOfTwo (by omega)).mp v.accepted.bytesPower
  rw [hk] at hlow hhigh
  refine ⟨k, ?_, ?_, hk⟩
  · exact (Nat.pow_le_pow_iff_right (by omega)).mp (show 2 ^ 9 ≤ 2 ^ k from hlow)
  · exact (Nat.pow_le_pow_iff_right (by omega)).mp (hhigh)

theorem clusterSectors_pos : 0 < v.clusterSectors := v.accepted.sectors.1

theorem sector_dvd_window : v.bytesPerSector ∣ 0x20000 := by
  obtain ⟨k, -, hk, heq⟩ := bytesPerSector_pow v
  rw [heq]
  exact (Nat.pow_dvd_pow 2 (show k ≤ 17 by omega))

theorem lastTableSector_succ : v.lastTableSector + 1 = v.rootSector := by
  have := v.accepted.reserved
  unfold Geometry.lastTableSector Geometry.rootSector
  omega

theorem dataStart_eq : v.dataStart = v.rootSector + v.directorySectors := by
  unfold Geometry.dataStart Geometry.rootSector
  rw [mul_comm v.tables]

theorem dataStart_le : v.dataStart ≤ v.totalSectors := by
  have := v.accepted.data
  omega

theorem dataStart_add : v.dataStart + v.dataSectors = v.totalSectors := by
  have := dataStart_le v
  unfold Geometry.dataSectors
  omega

theorem clusters_le : v.clusters + 2 ≤ 0x0FFFFFF8 := by
  by_cases h : v.type = .fat32
  · obtain ⟨-, -, -, hlimit, -, hinfo, hres⟩ := v.accepted.table32 h
    have hle : v.clusters ≤ v.dataSectors := Nat.div_le_self _ _
    have hadd := dataStart_add v
    have htotal := v.accepted.totalSectors
    have hstart : v.reservedSectors ≤ v.dataStart := by
      unfold Geometry.dataStart
      omega
    rwa [Nat.mod_eq_of_lt (by omega)] at hlimit
  · unfold Geometry.type at h
    split at h
    · omega
    · split at h
      · omega
      · exact absurd rfl h

theorem table32_le (h : v.type = .fat32) : (v.clusters + 2) * 4 ≤ v.tableSize := by
  have hle := clusters_le v
  obtain ⟨-, -, -, -, hsize, -⟩ := v.accepted.table32 h
  rwa [Nat.mod_eq_of_lt (by omega)] at hsize

end Facts

/-! ## The instance -/

/-- The bits of `mode`; `created` is bit 31. -/
structure FatMode where
  (append create modify read rootDir write created : Bool)

def FatMode.zero : FatMode := ⟨false, false, false, false, false, false, false⟩

/-- `struct fat_fd`. -/
structure FatFd where
  opened : Bool
  mode : FatMode
  record : Bytes
  (recordOffset recordSector eof offset clusterIdx clusterVal : Nat)

/-- An entry that `memset` has cleared. -/
def FatFd.zero : FatFd := ⟨false, .zero, fun _ => 0, 0, 0, 0, 0, 0, 0⟩

/-- The device and the buffers of the instance. -/
structure Store where
  disk : Bytes
  clusterSector : Nat
  (blockBuffer clusterBuffer tableBuffer : Bytes)
  tableSectors : Nat → Bool
  (tableOffset blockBufferLba clusterBufferLba : Nat)

/-- `struct fat_instance`, without the numbers of the volume. `tick` counts the calls
to the functions outside. -/
structure FatInstance extends Store where
  tick : Nat
  ready : Bool
  fdEntries : Nat
  fd : Nat → FatFd
  fsInfoModified : Bool
  (fsInfoFree fsInfoNext pathEntries : Nat)
  path : PathBuffer
  lastAllocated : Nat

/-- `fd_special`: the entry after the last one. -/
def FatInstance.fdSpecial (s : FatInstance) : Nat := s.fdEntries

def maximumFileSize : Nat := 0xFFFFFFFF

/-- How a function of the driver ends, if not with zero. The loops `endless` stands
for do not come to an end. -/
inductive FatEnd where
  | error (e : FatError)
  | endless
deriving DecidableEq

/-- The error codes, as they are tested by a caller. -/
def FatEnd.code : FatEnd → Option FatError
  | .error e => some e
  | .endless => none

abbrev FatProg := Prog FatEnd FatInstance

def throw {α : Type} (e : FatError) : FatProg α := Prog.fail (.error e)

def result {α : Type} (m : FatProg α) : FatProg (Except FatError α) := Prog.attempt FatEnd.code m

section Calls

variable (v : Volume)

/-- `fat_io_read`: whether it succeeds, and the bytes. -/
def fatIoRead (lba : Nat) : FatProg (Bool × Bytes) := Prog.act fun s =>
  let ok := v.device.readOk s.tick lba
  ((ok, if ok then fun j => s.disk (lba * v.blockSize + j) else v.device.noise s.tick),
    { s with tick := s.tick + 1 })

/-- `fat_io_write` of `size` bytes of `buf` from `i` on. -/
def fatIoWrite (lba : Nat) (buf : Bytes) (i size : Nat) : FatProg Bool := Prog.act fun s =>
  let ok := v.device.writeOk s.tick lba
  (ok, { s with
    disk := if ok then s.disk.copy (lba * v.blockSize) buf i size
      else s.disk.copy (lba * v.blockSize) (v.device.noise s.tick) 0 size
    tick := s.tick + 1 })

/-- `malloc`. -/
def fatMalloc : FatProg Bool := Prog.act fun s =>
  (v.device.memory s.tick, { s with tick := s.tick + 1 })

def fatGetTime : FatProg (Option Bytes) := Prog.act fun s =>
  (v.device.time s.tick, { s with tick := s.tick + 1 })

end Calls

/-- `parse_number`, with nothing for -1. -/
def parseNumber (str : Bytes) : Nat → Nat → Option Nat
  | _, 0 => some 0
  | i, len + 1 => do
      let val ← parseNumber str i len
      let c := (str (i + len)).toNat
      if c < 0x30 ∨ c > 0x39 then none else some (val * 10 + (c - 0x30))

def fatDateTime (iso : Option Bytes) : Nat × Nat :=
  let str := iso.getD fun _ => 0
  let year := parseNumber str 0 4
  let mon := parseNumber str 5 2
  let day := parseNumber str 8 2
  let hour := parseNumber str 11 2
  let min := parseNumber str 14 2
  let sec := parseNumber str 17 2
  let format := iso.isSome && str 4 = 0x2D && str 7 = 0x2D && str 10 = 0x54 && str 13 = 0x3A &&
    str 16 = 0x3A
  let stored := fun (y mo d h mi s : Nat) => (d + mo * 32 + (y - 1980) * 512, s / 2 + mi * 32 + h * 2048)
  match year with
  | none => stored 1980 1 1 0 0 0
  | some y =>
    if y > 2099 then if format then stored 2099 12 31 23 59 58 else stored 1980 1 1 0 0 0
    else
      match mon, day, hour, min, sec with
      | some mo, some d, some h, some mi, some s =>
        if format && 1 ≤ mo && mo ≤ 12 && 1 ≤ d && d ≤ 31 && h ≤ 23 && mi ≤ 59 && s ≤ 59 &&
            1980 ≤ y then stored y mo d h mi s
        else stored 1980 1 1 0 0 0
      | _, _, _, _, _ => stored 1980 1 1 0 0 0

def writeTimestamps (v : Volume) (entry : Bytes) (created modified : Bool) : FatProg Bytes := do
  let iso ← fatGetTime v
  let (date, time) := fatDateTime iso
  let entry := entry.setWord 18 date
  let entry := if created then (entry.setWord 14 time).setWord 16 date else entry
  pure (if modified then (entry.setWord 22 time).setWord 24 date else entry)

end Dancy.Fat
