import Dancy.Fat.Name

/-!
# The allocation table (`common/fat.c`)

The table is held in one buffer, or a window of 2¹⁷ bytes of it for FAT32.
Changed sectors are noted in `table_sectors` and written by `write_table`, to
the primary table and then to the secondary one.
-/

namespace Dancy.Fat

open Lib

variable (v : Volume)

/-- `table_entries`: the sectors of the table buffer. -/
def Volume.tableEntries : Nat :=
  if v.type = .fat32 then 0x20000 / v.bytesPerSector else v.tableSectors

/-- The runs of changed sectors among the `left` ones from `i` on: the first sector
and the number of sectors. -/
def dirtyRuns (dirty : Nat → Bool) : Nat → Nat → List (Nat × Nat)
  | 0, _ => []
  | left + 1, i =>
    if dirty i then
      match dirtyRuns dirty left (i + 1) with
      | (j, n) :: rest => if j = i + 1 then (i, n + 1) :: rest else (i, 1) :: (j, n) :: rest
      | [] => [(i, 1)]
    else dirtyRuns dirty left (i + 1)

/-- Write the runs to the table that starts at `first`. Only the primary table
has to be written. -/
def writeRuns (primary : Bool) (first : Nat) : List (Nat × Nat) → FatProg PUnit
  | [] => pure ⟨⟩
  | (i, n) :: rest => do
      let buffer ← Prog.gets (·.tableBuffer)
      let ok ← fatIoWrite v ((first + i) * v.ioMul) buffer (i * v.bytesPerSector) (n * v.bytesPerSector)
      if primary = true ∧ ok = false then do
        Prog.update fun s => { s with ready := false }
        throw .blockWriteError
      else writeRuns primary first rest

def clearSectors : FatProg PUnit := Prog.update fun s => { s with tableSectors := fun _ => false }

def writeTable : FatProg PUnit := do
  let runs ← Prog.gets fun s => dirtyRuns s.tableSectors v.tableEntries 0
  let first ← Prog.gets fun s => v.reservedSectors + s.tableOffset / v.bytesPerSector
  writeRuns v true first runs
  if v.tables < 2 then clearSectors
  else do
    writeRuns v false (first + v.tableSectors) runs
    clearSectors

/-- Fill `size` bytes of the table buffer. -/
def fetchTable (lba size : Nat) : FatProg PUnit := do
  let (ok, bytes) ← fatIoRead v lba
  Prog.update fun s => { s with tableBuffer := s.tableBuffer.copy 0 bytes 0 size, ready := s.ready && ok }
  if ok then pure ⟨⟩ else throw .blockReadError

/-- The end of `read_table_buffer`: the window at `off` is read. -/
def loadTableBuffer (off : Nat) : FatProg PUnit := do
  Prog.update fun s => { s with tableOffset := off }
  if off + 0x20000 > v.tableSize then do
    Prog.update fun s => { s with tableBuffer := fun _ => 0 }
    if 0x20000 < off + 0x20000 - v.tableSize then do
      Prog.update fun s => { s with ready := false }
      throw .inconsistentState
    else
      fetchTable v ((v.reservedSectors + off / v.bytesPerSector) * v.ioMul)
        (0x20000 - (off + 0x20000 - v.tableSize))
  else fetchTable v ((v.reservedSectors + off / v.bytesPerSector) * v.ioMul) 0x20000

/-- `read_table_buffer` with a buffer: the window of the byte at `off`, and its
place there. -/
def readTableBuffer (off : Nat) : FatProg Nat := do
  let window ← Prog.gets (·.tableOffset)
  if window = off / 0x20000 * 0x20000 then pure (off % 0x20000)
  else do
    match ← result (writeTable v) with
    | .error _ => do
        Prog.update fun s =>
          { s with tableBuffer := fun _ => 0, tableSectors := fun _ => false }
        throw .blockWriteError
    | .ok _ => do
        loadTableBuffer v (off / 0x20000 * 0x20000)
        pure (off % 0x20000)

/-! ## Entries -/

def entry12 (table : Bytes) (off : Nat) : Nat :=
  let val := table.word (off + off / 2)
  let val := if off % 2 = 1 then val / 0x10 % 0x1000 else val % 0x1000
  if val ≥ 0x0FF8 then val + 0x0FFFF000 else val

def entry16 (table : Bytes) (off : Nat) : Nat :=
  let val := table.word (off * 2)
  if val ≥ 0xFFF8 then val + 0x0FFF0000 else val

def entry32 (table : Bytes) (add : Nat) : Nat := table.dword add % 0x10000000

def getTableValue (off : Nat) : FatProg Nat :=
  if off ≥ v.clusters + 2 then pure 1
  else
    match v.type with
    | .fat12 => Prog.gets fun s => entry12 s.tableBuffer off
    | .fat16 => Prog.gets fun s => entry16 s.tableBuffer off
    | .fat32 => do
        match ← result (readTableBuffer v (off * 4)) with
        | .error _ => pure 1
        | .ok add => Prog.gets fun s => entry32 s.tableBuffer add

/-- `table_sectors[sec] = 1`. -/
def markSector (dirty : Nat → Bool) (sec : Nat) : Nat → Bool := fun i => decide (i = sec) || dirty i

/-- A new value in an entry of one and a half bytes. -/
def setEntry12 (off val : Nat) (s : FatInstance) : FatInstance :=
  let add := off + off / 2
  let old := s.tableBuffer.word add
  let new := if off % 2 = 1 then val % 0x1000 * 0x10 + old % 0x10 else val % 0x1000 + old / 0x1000 * 0x1000
  let sec := add / v.bytesPerSector
  let dirty := if add = v.bytesPerSector - 1 then markSector s.tableSectors (sec + 1) else s.tableSectors
  { s with tableBuffer := s.tableBuffer.setWord add new, tableSectors := markSector dirty sec }

def setEntry16 (off val : Nat) (s : FatInstance) : FatInstance :=
  { s with
    tableBuffer := s.tableBuffer.setWord (off * 2) val
    tableSectors := markSector s.tableSectors (off * 2 / v.bytesPerSector) }

/-- `fs_info_free` and `fs_info_next`, as an entry gets a new value. -/
def countFree (off old val : Nat) (s : FatInstance) : FatInstance :=
  if s.fsInfoFree = 0xFFFFFFFF then s
  else
    { s with
      fsInfoFree := if old = 0 ∧ val ≠ 0 then (s.fsInfoFree + 0xFFFFFFFF) % 0x100000000
        else if old ≠ 0 ∧ val = 0 then (s.fsInfoFree + 1) % 0x100000000
        else s.fsInfoFree
      fsInfoNext := if val ≠ 0 then off else s.fsInfoNext }

/-- A new value in an entry of four bytes, at a place of the window. -/
def setEntry32 (off add val : Nat) (s : FatInstance) : FatInstance :=
  let old := s.tableBuffer.dword add
  { countFree off (old % 0x10000000) val s with
    tableBuffer := s.tableBuffer.setDword add (val % 0x10000000 + old / 0x10000000 * 0x10000000)
    tableSectors := markSector s.tableSectors (add / v.bytesPerSector) }

def setTableValue (off val : Nat) : FatProg PUnit :=
  if off ≥ v.clusters + 2 then throw .inconsistentState
  else
    match v.type with
    | .fat12 => Prog.update (setEntry12 v off val)
    | .fat16 => Prog.update (setEntry16 v off val)
    | .fat32 => do
        let add ← readTableBuffer v (off * 4)
        Prog.update (setEntry32 v off add val)

/-! ## The two buffers -/

def readBlock (lba : Nat) : FatProg PUnit :=
  if lba = 0 then throw .blockReadError
  else do
    let block ← Prog.gets (·.blockBufferLba)
    let cluster ← Prog.gets (·.clusterBufferLba)
    if block = lba then pure ⟨⟩
    else if cluster = lba then
      Prog.update fun s => { s with
        blockBuffer := s.blockBuffer.copy 0 s.clusterBuffer 0 v.bytesPerSector
        blockBufferLba := lba }
    else do
      let (ok, bytes) ← fatIoRead v lba
      Prog.update fun s => { s with
        blockBuffer := s.blockBuffer.copy 0 bytes 0 v.bytesPerSector
        blockBufferLba := if ok then lba else 0 }
      if ok then pure ⟨⟩ else throw .blockReadError

def writeBlock (lba : Nat) : FatProg PUnit := do
  Prog.update fun s => { s with clusterBufferLba := 0 }
  let buffer ← Prog.gets (·.blockBuffer)
  let ok ← fatIoWrite v lba buffer 0 v.bytesPerSector
  if ok then pure ⟨⟩ else throw .blockWriteError

def Volume.sectorOf (cluster : Nat) : Nat :=
  v.totalSectors - v.dataSectors + (cluster - 2) * v.clusterSectors

/-- Fill the cluster buffer, or clear it if the cluster cannot be read. -/
def fetchCluster (lba : Nat) : FatProg PUnit := do
  let (ok, bytes) ← fatIoRead v lba
  Prog.update fun s => { s with
    clusterBuffer := if ok then s.clusterBuffer.copy 0 bytes 0 v.clusterSize
      else s.clusterBuffer.fill 0 0 v.clusterSize
    clusterBufferLba := if ok then lba else 0 }
  if ok then pure ⟨⟩ else throw .blockReadError

def readCluster (cluster : Nat) (skipIo : Bool) : FatProg PUnit :=
  if cluster < 2 ∨ v.clusters ≤ cluster - 2 then throw .inconsistentState
  else do
    Prog.update fun s => { s with clusterSector := v.sectorOf cluster }
    if skipIo then Prog.update fun s => { s with clusterBufferLba := 0 }
    else do
      let lba ← Prog.gets (·.clusterBufferLba)
      if lba = v.sectorOf cluster * v.ioMul then pure ⟨⟩
      else fetchCluster v (v.sectorOf cluster * v.ioMul)

def writeCluster : FatProg PUnit := do
  let sector ← Prog.gets (·.clusterSector)
  if sector ≤ v.lastTableSector then throw .inconsistentState
  else do
    Prog.update fun s => { s with blockBufferLba := 0 }
    let buffer ← Prog.gets (·.clusterBuffer)
    let ok ← fatIoWrite v (sector * v.ioMul) buffer 0 v.clusterSize
    if ok then pure ⟨⟩ else throw .blockWriteError

/-- `memset` on the cluster buffer. -/
def clearBuffer (i size : Nat) : FatProg PUnit :=
  Prog.update fun s => { s with clusterBuffer := s.clusterBuffer.fill i 0 size }

def updateFd (fd : Nat) (f : FatFd → FatFd) : FatProg PUnit :=
  Prog.update fun s => { s with fd := Function.update s.fd fd (f (s.fd fd)) }

def firstCluster (record : Bytes) : Nat := record.word 20 * 65536 + record.word 26

def setFirstCluster (record : Bytes) (cluster : Nat) : Bytes :=
  (record.setWord 20 (cluster / 65536)).setWord 26 cluster

def writeRecordBuffer (fd : Nat) : FatProg PUnit := do
  let entry ← Prog.gets (·.fd fd)
  if entry.recordOffset > v.bytesPerSector then throw .inconsistentState
  else if entry.recordSector ≤ v.lastTableSector then throw .inconsistentState
  else do
    readBlock v (entry.recordSector * v.ioMul)
    Prog.update fun s =>
      { s with blockBuffer := s.blockBuffer.copy entry.recordOffset entry.record 0 32 }
    writeBlock v (entry.recordSector * v.ioMul)

/-! ## Chains -/

/-- The first free cluster among the `left` ones from `i` on. -/
def freeFrom : Nat → Nat → FatProg (Option Nat)
  | 0, _ => pure none
  | left + 1, i => do
      let val ← getTableValue v i
      if val = 0 then pure (some i) else freeFrom left (i + 1)

/-- The first search of `allocate_cluster`. -/
def freeAfterLast : FatProg (Option Nat) := do
  let last ← Prog.gets (·.lastAllocated)
  if last > 2 then freeFrom v (v.clusters + 2 - last) last else pure none

def allocateCluster : FatProg Nat := do
  match ← freeAfterLast v with
  | some i => do
      Prog.update fun s => { s with lastAllocated := i }
      pure i
  | none => do
      match ← freeFrom v v.clusters 2 with
      | some i => do
          Prog.update fun s => { s with lastAllocated := i }
          pure i
      | none => throw .notEnoughSpace

def writeEmptyCluster (cluster : Nat) : FatProg PUnit := do
  readCluster v cluster true
  clearBuffer 0 v.clusterSize
  writeCluster v

def appendCluster (current : Nat) (fast : Bool) : FatProg PUnit := do
  let next ← getTableValue v current
  if 2 < next ∧ next < 0x0FFFFFF8 then throw .inconsistentState
  else do
    let cluster ← allocateCluster v
    if fast then do
      setTableValue v cluster 0x0FFFFFFF
      setTableValue v current cluster
    else do
      writeEmptyCluster v cluster
      setTableValue v cluster 0x0FFFFFFF
      writeTable v
      setTableValue v current cluster
      writeTable v

/-- The loop of `delete_clusters`. -/
def deleteChain : Nat → Nat → FatProg PUnit
  | fuel, cluster =>
    if cluster < 2 ∨ 0x0FFFFFF8 ≤ cluster then pure ⟨⟩
    else
      match fuel with
      | 0 => Prog.fail .endless
      | fuel + 1 => do
          let _ ← result (writeEmptyCluster v cluster)
          let next ← getTableValue v cluster
          let _ ← result (setTableValue v cluster 0)
          deleteChain fuel next

/-- `delete_clusters`. Every round but the last clears an entry. -/
def deleteClusters (start : Nat) : FatProg PUnit := do
  deleteChain v (v.clusters + 3) start
  Prog.update fun s => { s with lastAllocated := 0 }
  let _ ← result (writeTable v)
  pure ⟨⟩

/-- The bytes of the last cluster after the `used` ones are cleared. -/
def clearTail (cluster used : Nat) : FatProg PUnit := do
  match ← result (readCluster v cluster false) with
  | .error _ => pure ⟨⟩
  | .ok _ => do
      clearBuffer used (v.clusterSize - used)
      let _ ← result (writeCluster v)
      pure ⟨⟩

/-- The loop of `delete_extra_clusters` over the clusters a file needs: the cluster
after them, or nothing if the chain cannot be ended. -/
def extraChain (used : Nat) : Nat → Nat → FatProg (Option Nat)
  | 0, cluster => pure (some cluster)
  | left + 1, cluster => do
      let next ← getTableValue v cluster
      if left = 0 then do
        match ← result (setTableValue v cluster 0x0FFFFFFF) with
        | .error _ => pure none
        | .ok _ => do
            if used ≠ 0 then clearTail v cluster used
            extraChain used left next
      else extraChain used left next

def Volume.clustersFor (size : Nat) : Nat :=
  if size % v.clusterSize ≠ 0 then size / v.clusterSize + 1 else size / v.clusterSize

/-- `delete_extra_clusters` of an empty file. -/
def deleteAllClusters (fd : Nat) : FatProg PUnit := do
  let cluster ← Prog.gets fun s => firstCluster (s.fd fd).record
  updateFd fd fun e => { e with record := setFirstCluster e.record 0 }
  match ← result (writeRecordBuffer v fd) with
  | .error _ => updateFd fd fun e => { e with record := setFirstCluster e.record cluster }
  | .ok _ => deleteClusters v cluster

def deleteExtraClusters (fd : Nat) : FatProg PUnit := do
  let cluster ← Prog.gets fun s => firstCluster (s.fd fd).record
  let fileSize ← Prog.gets fun s => (s.fd fd).record.dword 28
  updateFd fd fun e => { e with clusterIdx := 0, clusterVal := 0 }
  if fileSize = 0 then deleteAllClusters v fd
  else do
    match ← extraChain v (fileSize % v.clusterSize) (v.clustersFor fileSize) cluster with
    | none => pure ⟨⟩
    | some cluster =>
      if 2 ≤ cluster ∧ cluster < 0x0FFFFFF8 then deleteClusters v cluster else pure ⟨⟩

/-- What is looked for: a component of the path, or an empty record. -/
abbrev Wanted := Option Nat

/-- Whether a record is deleted, or was never used. -/
def emptyRecord (buf : Bytes) (j : Nat) : Bool := buf j = 0 || buf j = 0xE5

/-- Whether a record has a name and is not a volume label. -/
def namedRecord (name : Vector UInt8 12) (buf : Bytes) (j : Nat) : Bool :=
  ((List.finRange 11).all fun k => name[k.val] = buf (j + k)) && (buf (j + 11) &&& 0x08) = 0

def wantedRecord (path : PathBuffer) : Wanted → Bytes → Nat → Bool
  | none => emptyRecord
  | some i => namedRecord (path[i]?.getD .zero).name

/-- How the records of a buffer end: with the one that is wanted, with one that was
never used, or with the buffer. -/
inductive ScanEnd where
  | found (j : Nat)
  | ended
  | more

/-- The `left` records from `j` on. -/
def scanBuffer (hit : Bytes → Nat → Bool) (buf : Bytes) : Nat → Nat → ScanEnd
  | 0, _ => .more
  | left + 1, j =>
    if hit buf j then .found j
    else if buf j = 0 then .ended
    else scanBuffer hit buf left (j + 32)

/-- The record at `j` becomes the record of the descriptor. -/
def takeRecord (fd : Nat) (buf : Bytes) (j offset sector : Nat) : FatProg PUnit :=
  updateFd fd fun e =>
    { e with record := e.record.copy 0 buf j 32, recordOffset := offset, recordSector := sector }

def fixedRootLoop (fd : Nat) (hit : Bytes → Nat → Bool) : Nat → Nat → FatProg Bool
  | 0, _ => pure false
  | left + 1, sector => do
      readBlock v (sector * v.ioMul)
      let buf ← Prog.gets (·.blockBuffer)
      match scanBuffer hit buf (v.bytesPerSector / 32) 0 with
      | .found j => do
          takeRecord fd buf j j sector
          pure true
      | .ended => pure false
      | .more => fixedRootLoop fd hit left (sector + 1)

/-- `iterate_fixed_root_dir`, with `false` for -1. -/
def iterateFixedRootDir (fd : Nat) (wanted : Wanted) : FatProg Bool := do
  let path ← Prog.gets (·.path)
  updateFd fd fun e => { e with recordOffset := 0, recordSector := 0 }
  fixedRootLoop v fd (wantedRecord path wanted) v.directorySectors v.rootSector

inductive ChainEnd where
  | found
  | ended
  /-- The last cluster. -/
  | last (cluster : Nat)
  | limit

/-- The clusters of a directory, `limit` at most. -/
def chainLoop (fd : Nat) (hit : Bytes → Nat → Bool) : Nat → Nat → FatProg ChainEnd
  | 0, _ => pure .limit
  | limit + 1, cluster => do
      readCluster v cluster false
      let buf ← Prog.gets (·.clusterBuffer)
      let first ← Prog.gets (·.clusterSector)
      match scanBuffer hit buf (v.clusterSize / 32) 0 with
      | .found j => do
          takeRecord fd buf j (j % v.bytesPerSector) (j / v.bytesPerSector + first)
          pure .found
      | .ended => pure .ended
      | .more => do
          let next ← getTableValue v cluster
          if next < 2 ∨ 0x0FFFFFF8 ≤ next then pure (.last cluster)
          else chainLoop fd hit limit next

def Volume.iterateLimit : Nat := 65536 * 32 / v.clusterSize

/-- `iterate_dir`, with `false` for -1. A directory without an empty record is
extended. -/
def iterateDir (fd : Nat) (wanted : Wanted) (cluster : Nat) : FatProg Bool := do
  let path ← Prog.gets (·.path)
  match ← chainLoop v fd (wantedRecord path wanted) v.iterateLimit cluster with
  | .found => pure true
  | .ended => pure false
  | .limit => pure false
  | .last cluster =>
    if wanted = none then do
      let _ ← result (appendCluster v cluster false)
      pure false
    else pure false

/-! ## Paths -/

/-- Whether the component is found, or the slot for a new record is looked for. -/
def findRecord (fd i cluster : Nat) (create : Bool) : FatProg Bool :=
  if i = 0 ∧ v.type ≠ .fat32 then do
    let found ← iterateFixedRootDir v fd (some 0)
    if found then pure true
    else if create = false then throw .fileNotFound
    else do
      let _ ← iterateFixedRootDir v fd none
      pure false
  else do
    let found ← iterateDir v fd (some i) cluster
    if found then pure true
    else if create = false then throw .fileNotFound
    else do
      match ← result (iterateDir v fd none cluster) with
      | .ok true => pure false
      | _ => do
          let _ ← iterateDir v fd none cluster
          pure false

def recordInUse (s : FatInstance) (fd : Nat) : Bool :=
  (List.range s.fdEntries).any fun j =>
    j ≠ fd && (s.fd j).opened && (s.fd j).recordOffset = (s.fd fd).recordOffset &&
      (s.fd j).recordSector = (s.fd fd).recordSector

/-- The "." record, without time stamps and cluster. -/
def dotRecord (dir : Bytes) : Bytes :=
  ((dir.setDword 0 0x2020202E).setDword 4 0x20202020).setDword 8 0x10202020

/-- A new directory: its cluster is written and its "." record is the template. -/
def newDirectory (fd parent : Nat) : FatProg Nat := do
  let cluster ← allocateCluster v
  readCluster v cluster true
  clearBuffer 0 v.clusterSize
  let dir ← Prog.gets (·.clusterBuffer)
  let dot ← writeTimestamps v (dotRecord dir) true true
  let dot := setFirstCluster dot cluster
  let dir := (dot.copy 32 dot 0 32).setWord 32 0x2E2E
  let dir := (dir.setWord 52 (parent / 65536)).setWord 58 parent
  Prog.update fun s => { s with clusterBuffer := dir }
  writeCluster v
  setTableValue v cluster 0x0FFFFFFF
  writeTable v
  updateFd fd fun e => { e with record := e.record.copy 0 dir 0 32 }
  pure cluster

/-- The record of a new file, over the one that was in the slot. -/
def newFile (fd : Nat) : FatProg Nat := do
  let record ← Prog.gets fun s => (s.fd fd).record
  let record ← writeTimestamps v record true true
  updateFd fd fun e => { e with record := record.setByte 11 0 }
  pure 0

/-- The name, the cluster and the size of a new record. -/
def nameRecord (name : Vector UInt8 12) (cluster : Nat) (record : Bytes) : Bytes :=
  let record := (record.setByte 12 0).copy 0 (fun k => name[k]?.getD 0) 0 11
  (setFirstCluster record cluster).setDword 28 0

/-- The new record of component `i`. -/
def createRecord (fd i cluster : Nat) : FatProg PUnit := do
  updateFd fd fun e => { e with mode := { e.mode with created := true } }
  let entry ← Prog.gets fun s => s.path[i]?.getD .zero
  let first ← if entry.isDir then newDirectory v fd (if i ≠ 0 then cluster else 0) else newFile v fd
  updateFd fd fun e => { e with record := nameRecord entry.name first e.record }
  writeRecordBuffer v fd

/-- The `left` components from `i` on, in the directory at `cluster`. -/
def fillRecordLoop (fd : Nat) (create : Bool) : Nat → Nat → Nat → FatProg PUnit
  | 0, _, _ => pure ⟨⟩
  | left + 1, i, cluster => do
      let found ← findRecord v fd i cluster create
      let used ← Prog.gets fun s => recordInUse s fd
      if left = 0 ∧ used = true then throw .fileAlreadyOpen
      else do
        if found = false then createRecord v fd i cluster
        let record ← Prog.gets fun s => (s.fd fd).record
        if left ≠ 0 ∧ record 11 &&& 0x10 = 0 then throw .invalidFileName
        else fillRecordLoop fd create left (i + 1) (firstCluster record)

def fillRecordBuffer (fd : Nat) : FatProg PUnit := do
  let create ← Prog.gets fun s => (s.fd fd).mode.create
  let entries ← Prog.gets (·.pathEntries)
  fillRecordLoop v fd create entries 0 v.rootCluster

end Dancy.Fat
