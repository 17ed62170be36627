import Dancy.Fat.Table

/-!
# The functions of the FAT driver (`common/fat.c`)

Opening, reading, writing, removing and renaming, from `fat_create` on. A
descriptor is an `int`; a function that also reports a size gives its error
code as a value.
-/

namespace Dancy.Fat

open Lib
open FatVfs (FatError)

variable (v : Volume)

/-! ## Descriptors and modes -/

/-- `check_fd` with more entries: the special one is not copied. -/
def growFds (fd : Nat) : FatProg Bool := do
  let ok ← fatMalloc v
  if ok then do
    Prog.update fun s => { s with
      fd := fun i => if i < s.fdEntries then s.fd i else .zero
      fdEntries := min (max (fd + 2) (s.fdEntries + 8)) 65537 - 1 }
    pure true
  else pure false

/-- `check_fd`, true if the descriptor is as it should be. -/
def checkFd (fd : Int) (opened : Bool) : FatProg Bool :=
  if fd < 0 ∨ 65536 ≤ fd then pure false
  else do
    let entries ← Prog.gets (·.fdEntries)
    if entries ≤ fd.toNat then do
      let ok ← growFds v fd.toNat
      if ok then Prog.gets fun s => (s.fd fd.toNat).opened == opened else pure false
    else Prog.gets fun s => (s.fd fd.toNat).opened == opened

def checkOpened (fd : Int) : FatProg PUnit := do
  let ready ← Prog.gets (·.ready)
  if ready = false then throw .notReady
  else do
    let ok ← checkFd v fd true
    if ok then pure ⟨⟩ else throw .invalidParameters

def modeLetter (mode : FatMode) (c : UInt8) : Option FatMode :=
  if c = 0x61 then some { mode with append := true, create := true, modify := true }
  else if c = 0x62 then some mode
  else if c = 0x72 then some { mode with read := true }
  else if c = 0x77 then some { mode with create := true, modify := true, write := true }
  else if c = 0x2B then some { mode with modify := true }
  else none

/-- The loop of `parse_mode`, with the letters seen. -/
def modeLoop (seen : List UInt8) (mode : FatMode) : List UInt8 → Option FatMode
  | [] =>
    if (seen.filter fun c => c = 0x61 || c = 0x72 || c = 0x77).length = 1 then some mode else none
  | c :: rest => do
      let mode ← modeLetter mode c
      if c ∈ seen then none else modeLoop (c :: seen) mode rest

def parseMode (mode : List UInt8) : Option FatMode := modeLoop [] .zero mode

/-- `fill_path_buffer`. Of an erroneous path nothing is kept: the entries are
cleared before they are used again. -/
def fillPath (name : List UInt8) : FatProg Bool := Prog.act fun s =>
  match fillPathBuffer s.path name with
  | .ok (path, entries) => (true, { s with path := path, pathEntries := entries })
  | .error _ => (false, { s with pathEntries := 0 })

/-- The loop of `compute_fs_info`: the free clusters and the next one. -/
def countLoop : Nat → Nat → Nat → Nat → Nat → Nat → FatProg (Option (Nat × Nat))
  | 0, _, _, _, free, next => pure (some (free, next))
  | left + 1, i, offset, prev, free, next => do
      let val ← Prog.gets fun s => entry32 s.tableBuffer offset
      let next' := if val = 0 ∧ 2 ≤ prev ∧ (prev ≤ 0x0FFFFFEF ∨ 0x0FFFFFF8 ≤ prev) then i + 1 else next
      let free' := if val = 0 then free + 1 else free
      if 0x20000 ≤ offset + 4 then do
        match ← result (readTableBuffer v ((i + 1) * 4)) with
        | .error _ => pure none
        | .ok offset => countLoop left (i + 1) offset val free' next'
      else countLoop left (i + 1) (offset + 4) val free' next'

def computeFsInfo : FatProg PUnit := do
  match ← result (readTableBuffer v 0) with
  | .error _ => pure ⟨⟩
  | .ok offset => do
      match ← countLoop v (v.clusters + 2) 0 offset 0 0 0xFFFFFFFF with
      | none => pure ⟨⟩
      | some (free, next) =>
        Prog.update fun s => { s with fsInfoFree := free, fsInfoNext := next }

/-- The search for a used entry, down from `next`. -/
def usedBefore : Nat → Nat → FatProg Nat
  | 0, next => pure next
  | fuel + 1, next =>
    if 2 < next ∧ next < v.clusters + 2 then do
      let val ← getTableValue v next
      if 2 ≤ val ∧ val ≤ 0x0FFFFFEF then pure next else usedBefore fuel (next - 1)
    else pure next

/-- The values of the sector are taken and the ones of the instance are stored. -/
def storeFsInfo (lba free next : Nat) : FatProg PUnit := do
  let buf ← Prog.gets (·.blockBuffer)
  if buf.dword 0 ≠ 0x41615252 ∨ buf.dword 484 ≠ 0x61417272 ∨ buf.dword 508 ≠ 0xAA550000 then pure ⟨⟩
  else do
    if buf.dword 488 ≠ 0 ∧ buf.dword 488 ≤ v.clusters ∧ 2 ≤ buf.dword 492 ∧
        buf.dword 492 < v.clusters + 2 then
      Prog.update fun s => { s with fsInfoFree := buf.dword 488, fsInfoNext := buf.dword 492 }
    let next ← usedBefore v next next
    Prog.update fun s =>
      { s with blockBuffer := (s.blockBuffer.setDword 488 free).setDword 492 next }
    let _ ← result (writeBlock v lba)
    pure ⟨⟩

def writeFsInfo : FatProg PUnit := do
  let free ← Prog.gets (·.fsInfoFree)
  let next ← Prog.gets (·.fsInfoNext)
  Prog.update fun s => { s with fsInfoFree := 0xFFFFFFFF, fsInfoNext := 0xFFFFFFFF }
  match ← result (readBlock v (v.infoSector * v.ioMul)) with
  | .error _ => pure ⟨⟩
  | .ok _ => storeFsInfo v (v.infoSector * v.ioMul) free next

def truncateOpened (fd : Nat) : FatProg PUnit := do
  let entry ← Prog.gets (·.fd fd)
  if entry.mode.modify = false then pure ⟨⟩
  else if entry.record 11 &&& 0x05 ≠ 0 then throw .readOnlyFile
  else if entry.mode.write = true ∧ entry.record 11 &&& 0x10 = 0 ∧ entry.mode.created = false then do
    let record := entry.record.setByte 11 (entry.record 11 ||| 0x20).toNat
    let record ← writeTimestamps v ((setFirstCluster record 0).setDword 28 0) false true
    updateFd fd fun e => { e with record := record }
    match ← result (writeRecordBuffer v fd) with
    | .error _ => throw .blockWriteError
    | .ok _ =>
      if firstCluster entry.record ≠ 0 then deleteClusters v (firstCluster entry.record)
      else pure ⟨⟩
  else pure ⟨⟩

/-- `fat_open` with a mode and a path that are valid. -/
def openRecord (fd : Nat) : FatProg PUnit := do
  let mode ← Prog.gets fun s => (s.fd fd).mode
  let written ← Prog.gets (·.fsInfoModified)
  if mode.modify = true ∧ v.type = .fat32 ∧ written = false then do
    writeFsInfo v
    Prog.update fun s => { s with fsInfoModified := true }
  if mode.rootDir = false then fillRecordBuffer v fd
  truncateOpened v fd
  updateFd fd fun e => { e with opened := true }

def fatOpen (fd : Int) (name mode : Option (List UInt8)) : FatProg PUnit := do
  let ready ← Prog.gets (·.ready)
  if ready = false then throw .notReady
  else do
    let ok ← checkFd v fd false
    match ok, mode with
    | true, some mode => do
        updateFd fd.toNat fun _ => .zero
        match name with
        | none => throw .invalidFileName
        | some [] => throw .invalidFileName
        | some name =>
          match parseMode mode with
          | none => throw .invalidParameters
          | some mode => do
              updateFd fd.toNat fun e => { e with mode := mode }
              let filled ← fillPath name
              if filled then openRecord v fd.toNat
              else if name ≠ [0x2F, 0x2E] then throw .invalidFileName
              else do
                updateFd fd.toNat fun e => { e with mode := { FatMode.zero with rootDir := true } }
                openRecord v fd.toNat
    | _, _ => throw .invalidParameters

def fatClose (fd : Int) : FatProg PUnit := do
  let ready ← Prog.gets (·.ready)
  if ready = false then throw .notReady
  else do
    let ok ← checkFd v fd true
    let ok' ← if ok then pure true else checkFd v fd false
    if ok' then updateFd fd.toNat fun e => { e with opened := false } else throw .invalidParameters

/-! ## `fat_control` -/

/-- The free clusters among the `left` ones from `i` on. -/
def freeClusters : Nat → Nat → FatProg Nat
  | 0, _ => pure 0
  | left + 1, i => do
      let val ← getTableValue v i
      let rest ← freeClusters left (i + 1)
      pure (if val = 0 then rest + 1 else rest)

/-- The label and the number of a volume, from its first sector. -/
def volumeRecord (buf : Bytes) : Bytes :=
  let label := if v.type = .fat32 then 0x47 else 0x2B
  let number := if v.type = .fat32 then 0x43 else 0x27
  fun k =>
    if k < 11 then
      if (buf (label + k)).toNat < 0x20 ∨ 0x7E < (buf (label + k)).toNat then 0x20 else buf (label + k)
    else if 12 ≤ k ∧ k < 16 then buf (number + (k - 12))
    else 0

/-- The number of free clusters, from the table or from the FS info. -/
def freeCount : FatProg Nat :=
  if v.type ≠ .fat32 then freeClusters v v.clusters 2
  else do
    let known ← Prog.gets (·.fsInfoFree)
    if known = 0xFFFFFFFF then do
      computeFsInfo v
      Prog.gets (·.fsInfoFree)
    else pure known

/-- The volume information of `fat_control`. -/
def volumeInformation : FatProg Bytes := do
  let (ok, bytes) ← fatIoRead v 0
  Prog.update fun s => { s with
    blockBufferLba := 0
    blockBuffer := s.blockBuffer.copy 0 bytes 0 v.bytesPerSector }
  if ok = false then throw .blockReadError
  else do
    let buf ← Prog.gets (·.blockBuffer)
    let free ← freeCount v
    if v.clusters < free then throw .inconsistentState
    else
      pure ((((volumeRecord v buf).setDword 0x10 v.bytesPerSector).setDword 0x14 v.clusterSize
        |>.setDword 0x18 (v.clusters - free)).setDword 0x1C v.clusters)

/-- The attributes and times that `fat_control` may change. -/
def controlRecord (old new : Bytes) : Bytes :=
  ((old.setByte 11 ((old 11 &&& 0xD8) ||| (new 11 &&& 0x27)).toNat).copy 13 new 13 7).copy 22 new 22 4

def truncateFile (fd : Nat) (size : Nat) : FatProg PUnit := do
  let entry ← Prog.gets (·.fd fd)
  if entry.record 11 &&& 0x10 = 0 ∧ size < entry.record.dword 28 then do
    let record ← writeTimestamps v entry.record false true
    updateFd fd fun e => { e with record := record.setDword 28 size }
    match ← result (writeRecordBuffer v fd) with
    | .error _ => do
        updateFd fd fun e => { e with record := e.record.setDword 28 (entry.record.dword 28) }
        throw .blockWriteError
    | .ok _ => deleteExtraClusters v fd
  else pure ⟨⟩

def fatControl (fd : Int) (write : Bool) (record : Bytes) : FatProg Bytes := do
  let ready ← Prog.gets (·.ready)
  if ready = false then throw .notReady
  else if fd = -1 ∧ write = false then volumeInformation v
  else do
    let ok ← checkFd v fd true
    let entry ← Prog.gets (·.fd fd.toNat)
    if ok = false then throw .invalidParameters
    else if entry.mode.rootDir = true then throw .invalidParameters
    else if write = false then pure (record.copy 0 entry.record 0 32)
    else do
      updateFd fd.toNat fun e => { e with record := controlRecord e.record record }
      match ← result (writeRecordBuffer v fd.toNat) with
      | .error _ => throw .blockWriteError
      | .ok _ => do
          truncateFile v fd.toNat (record.dword 28)
          pure record

def fatEof (fd : Int) : FatProg Bool := do
  let ready ← Prog.gets (·.ready)
  if ready = false then pure false
  else do
    let ok ← checkFd v fd true
    if ok then Prog.gets fun s => (s.fd fd.toNat).eof ≠ 0 else pure false

def fatTell (fd : Int) : FatProg Nat := do
  checkOpened v fd
  Prog.gets fun s => (s.fd fd.toNat).offset

/-- The new offset. The source subtracts the smallest `int` in two steps. -/
def seekOffset (entry : FatFd) (offset whence : Int) : Option Nat :=
  let maximumOffset := maximumFileSize - 1
  if whence = 0 then
    if offset < 0 ∨ maximumOffset < offset.toNat then none else some offset.toNat
  else if whence = 1 ∨ whence = 2 then
    let off := if whence = 2 then entry.record.dword 28 else entry.offset
    if offset < 0 then if off < offset.natAbs then none else some (off - offset.natAbs)
    else if entry.eof = 2 ∨ 0xFFFFFFFF - offset.toNat < off ∨ maximumOffset < off + offset.toNat then none
    else some (off + offset.toNat)
  else none

def fatSeek (fd : Int) (offset whence : Int) : FatProg PUnit := do
  checkOpened v fd
  let entry ← Prog.gets (·.fd fd.toNat)
  match seekOffset entry offset whence with
  | none => throw .seekError
  | some off => updateFd fd.toNat fun e => { e with offset := off, eof := 0 }

/-- What a transfer reports: the error code, the size, and for `fat_read` the bytes. -/
structure Transfer where
  error : Option FatError
  size : Nat
  data : Bytes

def Transfer.failed (e : FatError) : Transfer := ⟨some e, 0, fun _ => 0⟩

def reported (m : FatProg Transfer) : FatProg Transfer := do
  match ← result m with
  | .error e => pure (.failed e)
  | .ok t => pure t

/-- The sectors of the fixed root directory that are read: what was read before, and
the error. -/
def readRootLoop (limit : Nat) : Nat → Nat → Nat → Nat → Bytes → FatProg (Option FatError × Nat × Bytes)
  | 0, _, _, done, data => pure (none, done, data)
  | fuel + 1, sector, offset, done, data =>
    if limit ≤ done then pure (none, done, data)
    else if sector < v.lastTableSector then pure (some .inconsistentState, done, data)
    else do
      match ← result (readBlock v (sector * v.ioMul)) with
      | .error _ => pure (some .blockReadError, done, data)
      | .ok _ => do
          let buf ← Prog.gets (·.blockBuffer)
          let n := min (v.bytesPerSector - offset) (limit - done)
          readRootLoop limit fuel (sector + 1) 0 (done + n) (data.copy done buf offset n)

def readFixedRootDir (fd requested : Nat) : FatProg Transfer := do
  let offset ← Prog.gets fun s => (s.fd fd).offset
  let dirSize := v.directoryEntries * 32
  if dirSize ≤ offset then do
    updateFd fd fun e => { e with eof := 1 }
    pure ⟨none, 0, fun _ => 0⟩
  else do
    let limit := min requested (dirSize - offset)
    let (r, done, data) ← readRootLoop v limit limit (v.rootSector + offset / v.bytesPerSector)
      (offset % v.bytesPerSector) 0 fun _ => 0
    updateFd fd fun e => { e with
      offset := e.offset + done
      eof := if dirSize ≤ e.offset + done then 1 else e.eof }
    pure ⟨r, done, data⟩

/-- The cluster with index `index`, from the cluster with index `i`. The end of a
directory is no error. -/
def findCluster (isDir : Bool) (index : Nat) : Nat → Nat → Nat → FatProg Nat
  | 0, _, _ => throw .inconsistentState
  | left + 1, i, cluster =>
    if i = index then pure cluster
    else do
      let next ← getTableValue v cluster
      if isDir = true ∧ 0x0FFFFFF8 ≤ next then pure next
      else if next < 2 ∨ 0x0FFFFFF8 ≤ next then throw .inconsistentState
      else findCluster isDir index left (i + 1) next

/-- The clusters that are read: the error, what was read, and the next cluster. -/
def readLoop (fd limit : Nat) :
    Nat → Nat → Nat → Nat → Bytes → FatProg (Option FatError × Nat × Nat × Bytes)
  | 0, cluster, _, done, data => pure (none, done, cluster, data)
  | fuel + 1, cluster, offset, done, data =>
    if limit ≤ done then pure (none, done, cluster, data)
    else do
      match ← result (readCluster v cluster false) with
      | .error e => pure (some e, done, cluster, data)
      | .ok _ => do
          -- Save known cluster index and value.
          updateFd fd fun e =>
            { e with clusterIdx := (e.offset + done) / v.clusterSize, clusterVal := cluster }
          let buf ← Prog.gets (·.clusterBuffer)
          let n := min (v.clusterSize - offset) (limit - done)
          let next ← getTableValue v cluster
          if 0x0FFFFFF8 ≤ next then pure (none, done + n, next, data.copy done buf offset n)
          else readLoop fd limit fuel next 0 (done + n) (data.copy done buf offset n)

/-- `fat_read` of a chain of clusters. -/
def readChain (fd cluster fileSize requested : Nat) (isDir : Bool) : FatProg Transfer := do
  let entry ← Prog.gets (·.fd fd)
  let index := entry.offset / v.clusterSize
  let known := entry.clusterIdx ≠ 0 ∧ entry.clusterIdx ≤ index
  let i := if known then entry.clusterIdx else 0
  let cluster ← findCluster v isDir index (v.clustersFor fileSize - i) i
    (if known then entry.clusterVal else cluster)
  let limit := if isDir = true ∧ 0x0FFFFFF8 ≤ cluster then 0 else min requested (fileSize - entry.offset)
  let (r, done, cluster, data) ← readLoop v fd limit limit cluster (entry.offset % v.clusterSize) 0
    fun _ => 0
  updateFd fd fun e => { e with
    offset := e.offset + done
    eof := if isDir = true ∧ 0x0FFFFFF8 ≤ cluster ∧ (e.offset + done) % v.clusterSize = 0 then 1
      else if isDir = true ∧ r = none ∧ done = 0 then 1
      else if fileSize ≤ e.offset + done then 1
      else e.eof }
  pure ⟨r, done, data⟩

/-- `fat_read`: the size is zero if it is not given. -/
def fatRead (fd : Int) (requested : Nat) : FatProg Transfer := reported do
  checkOpened v fd
  let entry ← Prog.gets (·.fd fd.toNat)
  let isDir := entry.mode.rootDir || entry.record 11 &&& 0x10 ≠ 0
  let fileSize := if isDir then 2097152 else entry.record.dword 28
  if requested = 0 then pure ⟨none, 0, fun _ => 0⟩
  else if entry.mode.rootDir = true ∧ v.type ≠ .fat32 then readFixedRootDir v fd.toNat requested
  else if entry.eof ≠ 0 ∨ fileSize ≤ entry.offset then do
    updateFd fd.toNat fun e => { e with eof := 1 }
    pure ⟨none, 0, fun _ => 0⟩
  else
    readChain v fd.toNat (if entry.mode.rootDir then v.rootCluster else firstCluster entry.record)
      fileSize requested isDir

/-! ## `fat_write` -/

/-- The new file size, with the three tests of the offset and the requested size. -/
def newFileSize (requested offset : Nat) : Nat :=
  if maximumFileSize < requested ∨ 0xFFFFFFFF - offset < requested % 0x100000000 ∨
      maximumFileSize < requested + offset then maximumFileSize
  else requested + offset

def firstWriteCluster (fd : Nat) : FatProg Nat := do
  let cluster ← allocateCluster v
  setTableValue v cluster 0x0FFFFFFF
  writeTable v
  updateFd fd fun e => { e with record := setFirstCluster e.record cluster }
  match ← result (writeRecordBuffer v fd) with
  | .error e => do
      let _ ← result (setTableValue v cluster 0)
      let _ ← result (writeTable v)
      updateFd fd fun e => { e with record := setFirstCluster e.record 0 }
      throw e
  | .ok _ => pure cluster

/-- The clusters from the one with index `i` on: the first one to write, which is the
one with index `index`, and the error. Clusters are added while `clusters`, the
number of them that is needed, is not reached; `known` tells that the file does
not grow. -/
def extendLoop (index clusters : Nat) (known : Bool) :
    Nat → Nat → Nat → Nat → FatProg (Nat × Option FatError)
  | 0, _, _, first => pure (first, none)
  | left + 1, i, cluster, first =>
    let first := if i = index then cluster else first
    if i = index ∧ known = true then pure (first, none)
    else do
      let next ← getTableValue v cluster
      if 0x0FFFFFF8 ≤ next then
        if clusters ≤ i + 1 then pure (first, none)
        else do
          match ← result (appendCluster v cluster true) with
          | .error e => pure (first, some e)
          | .ok _ => do
              let next ← getTableValue v cluster
              if next < 2 then pure (first, some .inconsistentState)
              else extendLoop index clusters known left (i + 1) next first
      else if next < 2 then pure (first, some .inconsistentState)
      else extendLoop index clusters known left (i + 1) next first

structure WriteState where
  (cluster offset seekBytes written : Nat)
  /-- The place in the buffer of the caller. -/
  place : Nat

/-- The bytes that one round copies. With a request of 2³² bytes or more the 32-bit
counter of the inner loop never reaches it. -/
def WriteState.count (w : WriteState) (requested : Nat) : Nat :=
  let room := v.clusterSize - (w.offset + min (v.clusterSize - w.offset) w.seekBytes)
  if 0x100000000 ≤ requested then room else min room (requested - w.written)

/-- The cluster buffer after the bytes to be skipped, the data and, at the end of the
file, the rest of the cluster. -/
def WriteState.store (w : WriteState) (requested fdOffset originalSize : Nat) (data : Option Bytes)
    (buf : Bytes) : Bytes :=
  let skipped := min (v.clusterSize - w.offset) w.seekBytes
  let n := w.count v requested
  let buf := buf.fill w.offset 0 skipped
  let buf := match data with
    | some data => buf.copy (w.offset + skipped) data w.place n
    | none => buf.fill (w.offset + skipped) 0 n
  if originalSize ≤ (fdOffset + (w.written + n) % 0x100000000) % 0x100000000 then
    buf.fill (w.offset + skipped + n) 0 (v.clusterSize - (w.offset + skipped + n))
  else buf

def WriteState.next (w : WriteState) (requested cluster : Nat) : WriteState where
  cluster := cluster
  offset := 0
  seekBytes := w.seekBytes - min (v.clusterSize - w.offset) w.seekBytes
  written := (w.written + w.count v requested) % 0x100000000
  place := w.place + w.count v requested

/-- The clusters that are written: the number of bytes. -/
def writeLoop (fd requested originalSize : Nat) (data : Option Bytes) :
    Nat → WriteState → FatProg Nat
  | fuel, w =>
    if min requested maximumFileSize ≤ w.written then pure w.written
    else
      match fuel with
      | 0 => Prog.fail .endless
      | fuel + 1 => do
          let fdOffset ← Prog.gets fun s => (s.fd fd).offset
          let skipIo := decide (originalSize ≤ (fdOffset + w.written) % 0x100000000 ∧ w.offset = 0)
          match ← result (readCluster v w.cluster skipIo) with
          | .error _ => pure w.written
          | .ok _ => do
              -- Save known cluster index and value.
              updateFd fd fun e => { e with
                clusterIdx := (e.offset + w.written) % 0x100000000 / v.clusterSize
                clusterVal := w.cluster }
              Prog.update fun s => { s with
                clusterBuffer := w.store v requested fdOffset originalSize data s.clusterBuffer }
              match ← result (writeCluster v) with
              | .error _ => pure w.written
              | .ok _ => do
                  let next ← getTableValue v w.cluster
                  if 0x0FFFFFF8 ≤ next then pure (w.next v requested next).written
                  else writeLoop fd requested originalSize data fuel (w.next v requested next)

/-- The rounds that `writeLoop` can take before it repeats itself. -/
def Volume.writeRounds (seekBytes : Nat) : Nat := seekBytes + 0x100000000 + v.clusters + 3

/-- The record after the data, and what was written as far as it is recorded. -/
def storeRecord (fd written : Nat) : FatProg (Option FatError × Nat) := do
  let entry ← Prog.gets (·.fd fd)
  let originalSize := entry.record.dword 28
  let newOff := (entry.offset + written) % 0x100000000
  let record := if written ≠ 0 then
      (entry.record.setByte 11 (entry.record 11 ||| 0x20).toNat).setDword 28 (max originalSize newOff)
    else entry.record
  let record ← writeTimestamps v record false true
  updateFd fd fun e => { e with record := record }
  match ← result (writeRecordBuffer v fd) with
  | .ok _ => pure (none, written)
  | .error e => do
      updateFd fd fun e => { e with record := e.record.setDword 28 originalSize }
      pure (some e, if originalSize ≤ entry.offset then 0
        else if originalSize < newOff then originalSize - entry.offset
        else written)

/-- The clusters that are not used, and the error for them. -/
def dropUnused (fd requested written : Nat) (r : Option FatError) : FatProg (Option FatError) :=
  if written ≠ requested then do
    deleteExtraClusters v fd
    pure (if r = none then some .notEnoughSpace else r)
  else pure r

/-- The end of `fat_write`: the record, the clusters and the offset. -/
def finishWrite (fd requested written : Nat) : FatProg Transfer := do
  let (r, written) ← storeRecord v fd written
  let r ← dropUnused v fd requested written r
  updateFd fd fun e => { e with
    offset := (e.offset + written) % 0x100000000
    eof := if written ≠ 0 ∧ maximumFileSize ≤ (e.offset + written) % 0x100000000 then 1 else e.eof }
  pure ⟨r, written, fun _ => 0⟩

/-- Write the data, if there is a cluster for it. -/
def writeData (fd requested seekBytes originalSize first : Nat) (data : Option Bytes) : FatProg Nat := do
  let offset ← Prog.gets fun s => (s.fd fd).offset
  if 2 ≤ first then
    writeLoop v fd requested originalSize data (v.writeRounds seekBytes)
      ⟨first, (offset - seekBytes) % v.clusterSize, seekBytes, 0, 0⟩
  else pure 0

/-- `fat_write` of at least one byte, from the first cluster on. -/
def writeClusters (fd requested seekBytes originalSize fileSize cluster : Nat) (data : Option Bytes) :
    FatProg Transfer := do
  let entry ← Prog.gets (·.fd fd)
  let index := (entry.offset - seekBytes) / v.clusterSize
  let known := entry.clusterIdx ≠ 0 ∧ entry.clusterIdx ≤ index
  let i := if known then entry.clusterIdx else 0
  let (first, r) ← extendLoop v index (v.clustersFor fileSize) (fileSize = originalSize)
    (v.clusters + 2 - i) i (if known then entry.clusterVal else cluster) 0
  match ← result (writeTable v) with
  | .error _ => throw .blockWriteError
  | .ok _ =>
    if r ≠ none ∧ r ≠ some .notEnoughSpace then do
      deleteExtraClusters v fd
      pure ⟨r, 0, fun _ => 0⟩
    else do
      let written ← writeData v fd requested seekBytes originalSize first data
      finishWrite v fd requested written

/-- `fat_write`; there may be no buffer. -/
def fatWrite (fd : Int) (requested : Nat) (data : Option Bytes) : FatProg Transfer := reported do
  checkOpened v fd
  let entry ← Prog.gets (·.fd fd.toNat)
  if entry.record 11 &&& 0x10 ≠ 0 then throw .readOnlyRecord
  else if entry.mode.modify = false then throw .readOnlyFile
  else do
    let originalSize := entry.record.dword 28
    let offset := if entry.mode.append then originalSize else entry.offset
    updateFd fd.toNat fun e => { e with offset := offset }
    let seekBytes := offset - originalSize
    if requested = 0 then finishWrite v fd.toNat 0 0
    else do
      let cluster ←
        if firstCluster entry.record = 0 then firstWriteCluster v fd.toNat
        else pure (firstCluster entry.record)
      writeClusters v fd.toNat requested seekBytes originalSize
        (max originalSize (newFileSize requested offset)) cluster data

/-! ## `fat_remove` -/

/-- How one cluster of a directory looks like to `fat_remove`. -/
inductive EmptyEnd where
  | zero
  | used
  | more

/-- The `left` records from `j` on. -/
def scanEmpty (buf : Bytes) : Nat → Nat → EmptyEnd
  | 0, _ => .more
  | left + 1, j =>
    if buf j = 0 then .zero
    else if buf j ≠ 0xE5 then .used
    else scanEmpty buf left (j + 32)

/-- The clusters of a directory have to be empty; the first record that is looked at
is the one with index `first`. -/
def emptyLoop : Nat → Nat → Nat → FatProg PUnit
  | 0, _, _ => throw .inconsistentState
  | limit + 1, cluster, first => do
      readCluster v cluster false
      let buf ← Prog.gets (·.clusterBuffer)
      match scanEmpty buf (v.clusterSize / 32 - first) (first * 32) with
      | .zero => pure ⟨⟩
      | .used => throw .directoryNotEmpty
      | .more => do
          let next ← getTableValue v cluster
          if next < 2 ∨ 0x0FFFFFF8 ≤ next then pure ⟨⟩ else emptyLoop limit next 0

def deletedRecord : Bytes := fun k => if k = 0 then 0xE5 else if k < 11 then 0x20 else 0

/-- The checks of `fat_remove` on the record. -/
def checkRemovable (isDir : Bool) (record : Bytes) : FatProg PUnit :=
  if isDir = true ∧ record 11 &&& 0x10 = 0 then throw .fileRecord
  else if isDir = false ∧ record 11 &&& 0x10 ≠ 0 then throw .directoryRecord
  else if record 11 &&& 0x0C ≠ 0 then throw .readOnlyRecord
  else if record 11 &&& 0x10 ≠ 0 ∧ firstCluster record ≠ 0 then
    emptyLoop v v.iterateLimit (firstCluster record) 2
  else pure ⟨⟩

/-- Whether the last component of the path ends with a slash. -/
def lastIsDir (s : FatInstance) : Bool := (s.path[s.pathEntries - 1]?.getD .zero).isDir

def fatRemove (name : List UInt8) : FatProg PUnit := do
  let ready ← Prog.gets (·.ready)
  if ready = false then throw .notReady
  else do
    let fd ← Prog.gets (·.fdSpecial)
    updateFd fd fun _ => { FatFd.zero with mode := { FatMode.zero with read := true } }
    let filled ← fillPath name
    if filled = false then throw .invalidFileName
    else do
      fillRecordBuffer v fd
      let record ← Prog.gets fun s => (s.fd fd).record
      let entries ← Prog.gets (·.pathEntries)
      if entries = 0 then throw .invalidParameters
      else do
        let isDir ← Prog.gets lastIsDir
        checkRemovable v isDir record
        updateFd fd fun e => { e with record := deletedRecord }
        writeRecordBuffer v fd
        deleteClusters v (firstCluster record)

/-- A path of `fat_rename`. -/
def renamePath (name : List UInt8) : FatProg PUnit := do
  let filled ← fillPath name
  if filled then pure ⟨⟩ else throw .invalidFileName

/-- The name of a component: eleven bytes of it are compared and stored. -/
def componentName (s : FatInstance) (i : Nat) : List UInt8 :=
  ((s.path[i]?.getD .zero).name.toList).take 11

/-- The `left` components from `i` on have to be equal. -/
def sameParents (oldName newName : List UInt8) : Nat → Nat → FatProg PUnit
  | 0, _ => pure ⟨⟩
  | left + 1, i => do
      if i > 0 then renamePath newName
      let name ← Prog.gets fun s => componentName s i
      renamePath oldName
      let name' ← Prog.gets fun s => componentName s i
      if name' ≠ name then throw .invalidParameters
      else sameParents oldName newName left (i + 1)

/-- The search for the new name, which must not exist. -/
def newNameFree (fd : Nat) : FatProg PUnit := do
  match ← result (fillRecordBuffer v fd) with
  | .ok _ => throw .invalidParameters
  | .error .fileNotFound => pure ⟨⟩
  | .error e => throw e

def fatRename (oldName newName : List UInt8) : FatProg PUnit := do
  let ready ← Prog.gets (·.ready)
  if ready = false then throw .notReady
  else do
    let fd ← Prog.gets (·.fdSpecial)
    updateFd fd fun e =>
      { e with opened := false, offset := 0, mode := { FatMode.zero with read := true }, eof := 0 }
    renamePath oldName
    let entries ← Prog.gets (·.pathEntries)
    if entries = 0 then throw .invalidParameters
    else do
      let isDir ← Prog.gets lastIsDir
      fillRecordBuffer v fd
      renamePath newName
      let entries' ← Prog.gets (·.pathEntries)
      let isDir' ← Prog.gets lastIsDir
      if entries ≠ entries' then throw .invalidParameters
      else if isDir' = true ∧ isDir = false then throw .invalidParameters
      else do
        newNameFree v fd
        let name ← Prog.gets fun s => componentName s (entries - 1)
        sameParents oldName newName (entries - 1) 0
        renamePath oldName
        fillRecordBuffer v fd
        updateFd fd fun e => { e with record := e.record.copy 0 (fun k => name[k]?.getD 0) 0 11 }
        writeRecordBuffer v fd

/-- The instance before the table is read: `memset` has cleared it. -/
def blankInstance (disk : Bytes) (tick : Nat) (block : Bytes) (tableOffset : Nat) : FatInstance where
  disk := disk
  tick := tick
  ready := true
  fdEntries := 8
  fd := fun _ => .zero
  clusterSector := 0
  blockBuffer := block
  clusterBuffer := fun _ => 0
  tableBuffer := fun _ => 0
  tableSectors := fun _ => false
  tableOffset := tableOffset
  fsInfoModified := false
  fsInfoFree := 0xFFFFFFFF
  fsInfoNext := 0xFFFFFFFF
  pathEntries := 0
  path := Vector.replicate 256 .zero
  blockBufferLba := 0
  clusterBufferLba := 0
  lastAllocated := 0

/-- `read_full_table`, or the first window for FAT32. -/
def readTable : FatProg PUnit :=
  if v.type = .fat32 then loadTableBuffer v 0
  else fetchTable v (v.ioMul * v.reservedSectors) v.tableSize

/-- The number of bytes that `read_bios_parameter_block` reads. -/
def bootSize (blockSize : Nat) : Nat := max blockSize 512

/-- `fat_create` on a device: the volume and the instance. The calls for memory come
first; the first sector is read with the call number 4 and the table with number 8. -/
def fatCreate (device : Device) (disk : Bytes) : Option (Volume × FatInstance) :=
  match device.size with
  | none => none
  | some (blockSize, blockTotal) =>
    let buf := Bytes.copy (fun _ => 0) 0 disk 0 (bootSize blockSize)
    if ([0, 1, 2, 3, 5, 6, 7].all device.memory) && device.readOk 4 0 then
      match readBiosParameterBlock device blockSize blockTotal buf with
      | none => none
      | some v =>
        match readTable v (blankInstance disk 8 buf 0) with
        | (.ok _, s) => some (v, s)
        | (.error _, _) => none
    else none

inductive FatCall where
  | close (fd : Int)
  | control (fd : Int) (write : Bool) (record : Bytes)
  | eof (fd : Int)
  | openFile (fd : Int) (name mode : Option (List UInt8))
  | read (fd : Int) (size : Nat)
  | remove (name : List UInt8)
  | rename (oldName newName : List UInt8)
  | seek (fd : Int) (offset whence : Int)
  | tell (fd : Int)
  | write (fd : Int) (size : Nat) (data : Option Bytes)

def FatCall.run : FatCall → FatProg PUnit
  | .close fd => fatClose v fd
  | .control fd writing new => do
      let _ ← fatControl v fd writing new
      pure ⟨⟩
  | .eof fd => do
      let _ ← fatEof v fd
      pure ⟨⟩
  | .openFile fd name mode => fatOpen v fd name mode
  | .read fd size => do
      let _ ← fatRead v fd size
      pure ⟨⟩
  | .remove name => fatRemove v name
  | .rename oldName newName => fatRename v oldName newName
  | .seek fd offset whence => fatSeek v fd offset whence
  | .tell fd => do
      let _ ← fatTell v fd
      pure ⟨⟩
  | .write fd size data => do
      let _ ← fatWrite v fd size data
      pure ⟨⟩

/-- A call that comes to an end takes the instance to its next state. -/
def FatStep (s : FatInstance) (call : FatCall) (s' : FatInstance) : Prop :=
  (FatCall.run v call s).1 ≠ .error .endless ∧ s' = (FatCall.run v call s).2

/-- The first sector of a volume of type FAT12 with sectors and clusters of 512 bytes,
one table of one sector, and 16 records in the root directory. -/
def smallBoot (total : UInt8) : Bytes := fun k =>
  if k = 510 then 0x55
  else if k = 511 then 0xAA
  else [0xEB, 0x3C, 0x90, 0, 0, 0, 0, 0, 0, 0, 0, 0, 2, 1, 1, 0, 1, 16, 0, total, 0, 0xF8, 1].getD k 0

/-- The table is in sector 1, the root directory in sector 2, and the cluster `c` in
sector `c + 1`. -/
def smallDisk (total : UInt8) (table root data : List UInt8) : Bytes := fun k =>
  if k < 512 then smallBoot total k
  else if k < 1024 then table.getD (k - 512) 0
  else if k < 1536 then root.getD (k - 1024) 0
  else data.getD (k - 1536) 0

/-- A device whose writes all succeed, or all fail. -/
def smallDevice (total : Nat) (writes : Bool) : Device where
  size := some (512, total)
  readOk _ _ := true
  writeOk _ _ := writes
  noise _ _ := 0
  memory _ := true
  time _ := none

end Dancy.Fat
