import Dancy.Lib.Run

/-!
# The FAT nodes of the virtual file system (`vfs/fat_io.c`)

Of an instance of the FAT driver (`common/fat.c`) the model keeps which
descriptors are open: the driver takes a call through a closed descriptor
as an error, before anything else. What an accepted call answers, and
whether the device reports a changed medium meanwhile, is given by the
stream `replies`, one reply for each call.
-/

namespace Dancy.FatVfs

open Function List

inductive FatError where
  | blockReadError
  | blockWriteError
  | directoryNotEmpty
  | fileAlreadyOpen
  | fileNotFound
  | inconsistentState
  | invalidFileName
  | invalidParameters
  | notEnoughSpace
  | notReady
  | readOnlyFile
  | readOnlyRecord
  | seekError
  | directoryRecord
  | fileRecord
deriving DecidableEq

/-- The `DE_*` codes of these functions. -/
inductive NodeCode where
  | blockRead
  | blockWrite
  | notEmpty
  | busy
  | name
  | unexpected
  | argument
  | full
  | uninitialized
  | readOnly
  | seek
  | directory
  | file
  | mediaChanged
  | memory
  | path
  | type
  | placeholder
  | overflow
  | device (code : Nat)
deriving DecidableEq

def translateError : FatError → NodeCode
  | .blockReadError => .blockRead
  | .blockWriteError => .blockWrite
  | .directoryNotEmpty => .notEmpty
  | .fileAlreadyOpen => .busy
  | .fileNotFound => .name
  | .inconsistentState => .unexpected
  | .invalidFileName => .argument
  | .invalidParameters => .argument
  | .notEnoughSpace => .full
  | .notReady => .uninitialized
  | .readOnlyFile => .readOnly
  | .readOnlyRecord => .readOnly
  | .seekError => .seek
  | .directoryRecord => .directory
  | .fileRecord => .file

/-- `translate_error` of a `DE_*` code, taken as an error of the driver by its
number. -/
def translateAgain : NodeCode → NodeCode
  | .name => .blockWrite
  | .path => .notEmpty
  | .overflow => .busy
  | .directory => .unexpected
  | .file => .argument
  | .blockRead => .argument
  | .blockWrite => .full
  | .seek => .readOnly
  | .full => .seek
  | .readOnly => .directory
  | .busy => .file
  | _ => .unexpected

/-- The answer to a call: an error, whether the medium was reported as
changed, the record or the bytes read, how many, and what the device node
says when it is asked to synchronize. -/
structure FatReply where
  error : Option FatError
  changed : Bool
  bytes : Nat → UInt8
  size : Nat
  sync : Option NodeCode

/-- An instance of the driver; `number` counts the instances. -/
structure FatInstance where
  number : Nat
  opened : Nat → Bool

/-- A node and its `struct fat_internal_data`. `gen` is the number of the
instance the descriptor belongs to; no operation reads it. -/
structure FatNode where
  count : Nat
  directory : Bool
  path : List UInt8
  fd : Option Nat
  mediaChanged : Bool
  gen : Nat

/-- The calls through a descriptor, with what they are asked. -/
inductive DriverCall where
  | seek (offset whence : Nat)
  | read (size : Nat)
  | write (size : Nat)
  | getRecord
  | setRecord
deriving DecidableEq

/-- The modes of `fat_open` used here. -/
inductive OpenMode where
  | rb
  | rbPlus
  | wbPlus
deriving DecidableEq

/-- What was done to an instance (`number`) through a node of another one
or the same one (`gen`). -/
inductive Access where
  | descriptor (number gen : Nat) (call : DriverCall)
  | opening (number gen : Nat) (name : List UInt8) (mode : OpenMode)
  | removal (number gen : Nat) (name : List UInt8)
  | close (number gen : Nat)
deriving DecidableEq

/-- `struct fat_io`, its nodes, and what the driver will answer. `created`
counts the instances, `log` holds the accesses, newest first, and `fault`
tells that a call was made without an instance: no operation reads them. -/
structure FatIo where
  inst : Option FatInstance
  mediaChanged : Bool
  nodeArray : Nat → Option Nat
  nodeCount : Nat
  node : Nat → FatNode
  next : Nat
  freed : Bool
  replies : Nat → FatReply
  (calls created : Nat)
  log : List Access
  fault : Bool

def nodeArraySize : Nat := 1024

def rootPath : List UInt8 := [0x2F, 0x2E]

def FatIo.reply (io : FatIo) : FatReply := io.replies io.calls

def FatIo.answered (io : FatIo) (a : Option Access) : FatIo :=
  { io with
    calls := io.calls + 1
    mediaChanged := io.mediaChanged || io.reply.changed
    log := a.toList ++ io.log }

/-- `fat_seek`, `fat_read`, `fat_write` and `fat_control` through the
descriptor of a node. -/
def fatCall (io : FatIo) (n : Nat) (call : DriverCall) : Option FatError × FatReply × FatIo :=
  match io.inst with
  | none => (some .notReady, io.reply, { io with fault := true })
  | some inst =>
    match (io.node n).fd with
    | none => (some .invalidParameters, io.reply, io)
    | some fd =>
      if inst.opened fd then
        (io.reply.error, io.reply,
          io.answered (some (.descriptor inst.number (io.node n).gen call)))
      else (some .invalidParameters, io.reply, io)

/-- `fat_open` with the descriptor of a node, for an operation on `parent`. -/
def fatOpen (io : FatIo) (parent n : Nat) (name : List UInt8) (mode : OpenMode) :
    Option FatError × FatIo :=
  match io.inst with
  | none => (some .notReady, { io with fault := true })
  | some inst =>
    match (io.node n).fd with
    | none => (some .invalidParameters, io)
    | some fd =>
      if inst.opened fd then (some .invalidParameters, io)
      else
        let io' := io.answered (some (.opening inst.number (io.node parent).gen name mode))
        match io.reply.error with
        | some e => (some e, io')
        | none =>
          (none, { io' with
            inst := some { inst with opened := update inst.opened fd true } })

/-- `fat_close` with the descriptor of a node; the result is not used. -/
def fatClose (io : FatIo) (n : Nat) : FatIo :=
  match io.inst, (io.node n).fd with
  | some inst, some fd =>
    { io with
      inst := some { inst with opened := update inst.opened fd false }
      log := .close inst.number (io.node n).gen :: io.log }
  | _, _ => { io with fault := true }

def fatRemove (io : FatIo) (n : Nat) (name : List UInt8) : Option FatError × FatIo :=
  match io.inst with
  | none => (some .notReady, { io with fault := true })
  | some inst =>
    (io.reply.error, io.answered (some (.removal inst.number (io.node n).gen name)))

/-! ## Entering and leaving -/

/-- The search for the root node in `enter_fat`. -/
def findRoot (io : FatIo) : Nat → Nat → Option Nat
  | 0, _ => none
  | left + 1, i =>
    match io.nodeArray i with
    | some n => if (io.node n).path = rootPath then some n else findRoot io left (i + 1)
    | none => findRoot io left (i + 1)

def FatIo.setNode (io : FatIo) (n : Nat) (v : FatNode) : FatIo :=
  { io with node := update io.node n v }

/-- `fat_create`: a new instance has no open descriptors. -/
def fatCreate (io : FatIo) : Option FatError × FatIo :=
  let io' := io.answered none
  match io.reply.error with
  | some e => (some e, io')
  | none =>
    (none, { io' with
      inst := some ⟨io.created + 1, fun _ => false⟩
      created := io.created + 1 })

/-- The second half of `enter_fat`: the root node is bound to a new instance. -/
def bindRoot (io : FatIo) : Option NodeCode × FatIo :=
  match findRoot io io.nodeCount 0 with
  | none => (none, io)
  | some n =>
    let io := io.setNode n { io.node n with mediaChanged := false, gen := io.created }
    match fatOpen io n n rootPath .rbPlus with
    | (some e, io) => (some (translateError e), { io with inst := none, mediaChanged := true })
    | (none, io) => (none, io)

/-- `enter_fat` after a change of the medium. -/
def enterChanged (io : FatIo) : Option NodeCode × FatIo :=
  match fatCreate { io with inst := none, mediaChanged := false } with
  | (some _, io) => (some .mediaChanged, { io with inst := none, mediaChanged := true })
  | (none, io) => bindRoot io

/-- `enter_fat`; the mutex is taken unless a code is returned. -/
def enterFat (io : FatIo) : Option NodeCode × FatIo :=
  if io.mediaChanged then enterChanged io else (none, io)

/-- `leave_fat`: after a change of the medium all nodes are marked. -/
def leaveFat (io : FatIo) : FatIo :=
  if io.mediaChanged then
    { io with
      node := fun n =>
        if (range io.nodeCount).any fun i => io.nodeArray i = some n then
          { io.node n with mediaChanged := true }
        else io.node n
      inst := none }
  else io

/-- A descriptor is closed if the node belongs to the instance. -/
def closeNode (io : FatIo) (n : Nat) : FatIo :=
  if !io.mediaChanged && !(io.node n).mediaChanged && io.inst.isSome then fatClose io n else io

def dropIndex (io : FatIo) (fd : Nat) : FatIo :=
  { io with
    nodeCount := if io.nodeCount = fd + 1 then io.nodeCount - 1 else io.nodeCount
    nodeArray := update io.nodeArray fd none }

def freeEmpty (io : FatIo) : FatIo :=
  if (range io.nodeCount).all fun i => (io.nodeArray i).isNone then
    { io with inst := none, freed := true }
  else io

def releaseNode (io : FatIo) (n : Nat) : FatIo :=
  match (io.node n).fd with
  | none => freeEmpty io
  | some fd => freeEmpty (dropIndex (closeNode io n) fd)

def nRelease (io : FatIo) (n : Nat) : FatIo :=
  let io := io.setNode n { io.node n with count := (io.node n).count - 1 }
  if (io.node n).count = 0 then releaseNode io n else io

/-- A name in a path that begins with a period gets another first byte. -/
def hidePeriod : List UInt8 → List UInt8
  | 0x2E :: c :: rest => if c ≠ 0x2E then 0x60 :: c :: rest else 0x2E :: c :: rest
  | name => name

/-- One name and a slash are added to the buffer of 256 bytes. -/
def addName (buf : List UInt8) : List UInt8 → Option (List UInt8)
  | [] => some (buf ++ [0x2F])
  | c :: rest => if buf.length > 253 then none else addName (buf ++ [c]) rest

def addNames (buf : List UInt8) : List (List UInt8) → Option (List UInt8)
  | [] => some buf
  | name :: rest => (addName buf name).bind fun buf => addNames buf rest

/-- The path of a name in a directory, given the names of the directory's
owners below the mount point; `none` is an overlong path. -/
def buildPath (owners : List (List UInt8)) (name : List UInt8) : Option (List UInt8) :=
  (addNames [] (owners ++ [hidePeriod name])).map dropLast

/-- The loop of `check_name`, with the number of periods before. -/
def checkChars : Nat → List UInt8 → Bool
  | _, [] => false
  | periods, c :: rest =>
    let periods := if c = 0x2E then periods + 1 else periods
    if c = 0x2E ∧ (periods > 1 ∨ rest = []) then true
    else if 0x41 ≤ c ∧ c ≤ 0x5A then true
    else if c ≤ 0x20 ∨ c > 0x7E then true
    else checkChars periods rest

/-- `check_name`; `true` is a name that is not accepted. -/
def checkName : List UInt8 → Bool
  | [] => false
  | c :: rest => if c = 0x2E then !(rest = [] ∨ rest = [0x2E]) else checkChars 0 (c :: rest)

/-! ## The operations of a node -/

inductive VfsType where
  | unknown
  | regular
  | directory
  | other
deriving DecidableEq

/-- `vfs_mode_create`, `vfs_mode_truncate` and `vfs_mode_exclusive`. -/
def modeCreate (mode : Nat) : Bool := mode.testBit 0
def modeTruncate (mode : Nat) : Bool := mode.testBit 1
def modeExclusive (mode : Nat) : Bool := mode.testBit 2

def le32 (bytes : Nat → UInt8) (i : Nat) : Nat :=
  (bytes i).toNat + 0x100 * (bytes (i + 1)).toNat + 0x10000 * (bytes (i + 2)).toNat +
    0x1000000 * (bytes (i + 3)).toNat

def allocNode (io : FatIo) (path : List UInt8) : FatIo :=
  { io with
    node := update io.node io.next ⟨1, false, path, none, false, io.created⟩
    next := io.next + 1 }

/-- The first free index of `node_array`. -/
def freeIndex (io : FatIo) : Nat → Nat → Option Nat
  | 0, _ => none
  | left + 1, i => if io.nodeArray i = none then some i else freeIndex io left (i + 1)

/-- A node gets an index, which is its descriptor too. -/
def putNode (io : FatIo) (n i : Nat) : FatIo :=
  { io.setNode n { io.node n with fd := some i } with
    nodeCount := if io.nodeCount < i + 1 then i + 1 else io.nodeCount
    nodeArray := update io.nodeArray i (some n) }

def openExclusive (io : FatIo) (node n : Nat) (name : List UInt8) (mode : Nat) :
    Option NodeCode × FatIo :=
  if modeExclusive mode && modeCreate mode then
    match fatOpen io node n name .rb with
    | (none, io) => (some .busy, fatClose io n)
    | (some e, io) => (if e = .fileNotFound then none else some (translateError e), io)
  else (none, io)

/-- A read-only file is opened for reading, a missing one is made. -/
def openModes (io : FatIo) (node n : Nat) (name : List UInt8) (mode : Nat) :
    Option FatError × FatIo :=
  let (r, io) := fatOpen io node n name .rbPlus
  let (r, io) := if r = some .readOnlyFile then fatOpen io node n name .rb else (r, io)
  if r = some .fileNotFound ∧ modeCreate mode then fatOpen io node n name .wbPlus else (r, io)

/-- The record of an opened file gives the type of its node. -/
def openRecord (io : FatIo) (n : Nat) (mode : Nat) : Option FatError × FatIo :=
  match fatCall io n .getRecord with
  | (some e, _, io) => (some e, io)
  | (none, reply, io) =>
    let io := io.setNode n { io.node n with directory := (reply.bytes 11).toNat.testBit 4 }
    if modeTruncate mode then
      let (r, _, io) := fatCall io n .setRecord
      (r, io)
    else (none, io)

/-- What `n_open` does with the new node, inside. -/
def openNode (io : FatIo) (node n : Nat) (name : List UInt8) (mode : Nat) :
    Option NodeCode × FatIo :=
  match openExclusive io node n name mode with
  | (some e, io) => (some e, io)
  | (none, io) =>
    match openModes io node n name mode with
    | (some e, io) => (some (translateError e), io)
    | (none, io) =>
      let (r, io) := openRecord io n mode
      (r.map translateError, io)

/-- `n_open` after `enter_fat`; `memory` tells whether there is any. -/
def openEntered (io : FatIo) (node : Nat) (path : List UInt8) (type : VfsType) (mode : Nat)
    (memory : Bool) : Option NodeCode × Option Nat × FatIo :=
  if !memory then (some .memory, none, leaveFat io)
  else
    let n := io.next
    let io := allocNode io path
    match freeIndex io nodeArraySize 0 with
    | none => (some .memory, none, nRelease (leaveFat io) n)
    | some i =>
      let name := if type = .directory then path ++ [0x2F] else path
      match openNode (putNode io n i) node n name mode with
      | (some e, io) => (some e, none, nRelease (leaveFat io) n)
      | (none, io) => (none, some n, leaveFat io)

/-- `n_open`, with the names of the owners of `node` below the mount point. -/
def nOpen (io : FatIo) (node : Nat) (owners : List (List UInt8)) (name : List UInt8)
    (type : VfsType) (mode : Nat) (memory : Bool) : Option NodeCode × Option Nat × FatIo :=
  if type = .other then (some .type, none, io)
  else
    match buildPath owners name with
    | none => (some .path, none, io)
    | some path =>
      if path = [] then (some .path, none, io)
      else if checkName path ∨ name.head? = some 0x60 then (some .argument, none, io)
      else
        match enterFat io with
        | (some e, io) => (some e, none, io)
        | (none, io) => openEntered io node path type mode memory

/-- An offset is reached with one or two calls of `fat_seek`. -/
def fatSeek (io : FatIo) (n offset : Nat) : Option FatError × FatIo :=
  if offset ≤ 0x7FFFFFFF then
    let (r, _, io) := fatCall io n (.seek offset 0)
    (r, io)
  else
    match fatCall io n (.seek 0x7FFFFFFF 0) with
    | (some e, _, io) => (some e, io)
    | (none, _, io) =>
      let (r, _, io) := fatCall io n (.seek (offset - 0x7FFFFFFF) 1)
      (r, io)

def transfer (io : FatIo) (n offset : Nat) (call : DriverCall) :
    Option NodeCode × FatReply × FatIo :=
  match fatSeek io n offset with
  | (some e, io) => (some (translateError e), io.reply, leaveFat io)
  | (none, io) =>
    let (r, reply, io) := fatCall io n call
    (r.map translateError, reply, leaveFat io)

/-- `n_read` and `n_write`: `n_read_write_common`, with the bytes moved. -/
def nReadWrite (io : FatIo) (n offset size : Nat) (write : Bool) :
    Option NodeCode × Nat × FatIo :=
  if (io.node n).directory then (some .directory, 0, io)
  else if offset ≥ 0xFFFFFFFF then (none, 0, io)
  else
    match enterFat io with
    | (some e, io) => (some e, 0, io)
    | (none, io) =>
      match transfer io n offset (if write then .write size else .read size) with
      | (some e, _, io) => (some e, 0, io)
      | (none, reply, io) => (none, reply.size, io)

def nAppend (io : FatIo) (n size : Nat) : Option NodeCode × Nat × FatIo :=
  if (io.node n).directory then (some .directory, 0, io)
  else
    match enterFat io with
    | (some e, io) => (some e, 0, io)
    | (none, io) =>
      match fatCall io n .getRecord with
      | (some e, _, io) => (some (translateError e), 0, leaveFat io)
      | (none, reply, io) =>
        if le32 reply.bytes 28 = 0xFFFFFFFF then (none, 0, leaveFat io)
        else
          match transfer io n (le32 reply.bytes 28) (.write size) with
          | (some e, _, io) => (some e, 0, io)
          | (none, reply, io) => (none, reply.size, io)

def devSync (io : FatIo) : Option NodeCode × FatIo :=
  (io.reply.sync, { io with
    calls := io.calls + 1
    mediaChanged := io.mediaChanged || io.reply.sync = some .mediaChanged })

def nSync (io : FatIo) : Option NodeCode × FatIo :=
  match enterFat io with
  | (some e, io) => (some e, io)
  | (none, io) =>
    let (r, io) := devSync io
    (r, leaveFat io)

def lower (c : UInt8) : UInt8 := if 0x41 ≤ c ∧ c ≤ 0x5A then c + 32 else c

/-- A directory record of `size` bytes as a name. -/
def direntName (bytes : Nat → UInt8) (size : Nat) : Option NodeCode × List UInt8 :=
  if size ≠ 32 ∨ bytes 0 = 0 then (none, [])
  else
    let first := if bytes 0 = 0x60 then 0x2E else bytes 0
    if first = 0xE5 ∨ (bytes 11).toNat.testBit 3 then (some .placeholder, [])
    else
      let chars := first :: (range 10).map fun i => bytes (i + 1)
      if 0 ∈ chars then (some .unexpected, [])
      else
        let base := (((chars.map lower).take 8).reverse.dropWhile (· = 0x20)).reverse
        let ext := (((chars.map lower).drop 8).reverse.dropWhile (· = 0x20)).reverse
        if base = [] then (some .placeholder, [])
        else (none, if ext = [] then base else base ++ 0x2E :: ext)

/-- `n_readdir` after `enter_fat`. -/
def readdirEntered (io : FatIo) (n offset : Nat) : Option NodeCode × List UInt8 × FatIo :=
  let (r, io) := devSync io
  if r = some .mediaChanged then (some .mediaChanged, [], leaveFat io)
  else
    let readOffset := if (io.node n).path = rootPath then (offset - 2) * 32 else offset * 32
    match fatCall io n (.seek readOffset 0) with
    | (some e, _, io) => (some (translateError e), [], leaveFat io)
    | (none, _, io) =>
      match fatCall io n (.read 32) with
      | (some e, _, io) => (some (translateError e), [], leaveFat io)
      | (none, reply, io) =>
        let (r, name) := direntName reply.bytes reply.size
        (r, name, leaveFat io)

def nReaddir (io : FatIo) (n offset : Nat) : Option NodeCode × List UInt8 × FatIo :=
  if !(io.node n).directory then (some .type, [], io)
  else if offset = 0 then (none, [0x2E], io)
  else if offset = 1 then (none, [0x2E, 0x2E], io)
  else if offset > 0x10000 then (none, [], io)
  else
    match enterFat io with
    | (none, io) => readdirEntered io n offset
    | (some .mediaChanged, io) =>
      match enterFat io with
      | (none, io) => readdirEntered io n offset
      | (some e, io) => (some e, [], io)
    | (some e, io) => (some e, [], io)

/-- `n_stat`, with the size. -/
def nStat (io : FatIo) (n : Nat) : Option NodeCode × Nat × FatIo :=
  match enterFat io with
  | (some e, io) => (some e, 0, io)
  | (none, io) =>
    match fatCall io n .getRecord with
    | (some e, _, io) =>
      (if (io.node n).path = rootPath then none else some (translateError e), 0, leaveFat io)
    | (none, reply, io) => (none, le32 reply.bytes 28, leaveFat io)

/-- `n_truncate`: a file is extended with one zero byte. -/
def nTruncate (io : FatIo) (n size : Nat) : Option NodeCode × FatIo :=
  if size > 0xFFFFFFFF then (some .overflow, io)
  else
    match enterFat io with
    | (some e, io) => (some e, io)
    | (none, io) =>
      match fatCall io n .getRecord with
      | (some e, _, io) => (some (translateError e), leaveFat io)
      | (none, reply, io) =>
        if (reply.bytes 11).toNat &&& 0x1D ≠ 0 then (some .readOnly, leaveFat io)
        else if le32 reply.bytes 28 > size then
          let (r, _, io) := fatCall io n .setRecord
          (r.map translateError, leaveFat io)
        else if le32 reply.bytes 28 < size then
          let (r, _, io) := nReadWrite (leaveFat io) n (size - 1) 1 true
          (r.map translateAgain, io)
        else (none, leaveFat io)

def nRemove (io : FatIo) (n : Nat) (owners : List (List UInt8)) (name : List UInt8)
    (dir : Bool) : Option NodeCode × FatIo :=
  match buildPath owners name with
  | none => (some .path, io)
  | some path =>
    if path = [] then (none, io)
    else if checkName path ∨ name.head? = some 0x60 then (some .argument, io)
    else
      match enterFat io with
      | (some e, io) => (some e, io)
      | (none, io) =>
        let (r, io) := fatRemove io n (if dir then path ++ [0x2F] else path)
        (r.map translateError, leaveFat io)

/-- `fat_io_create`: the root node, marked, and no instance yet. -/
def fatIoCreate (replies : Nat → FatReply) : FatIo :=
  { inst := none
    mediaChanged := true
    nodeArray := update (fun _ => none) 0 (some 0)
    nodeCount := 1
    node := fun _ => ⟨1, true, rootPath, some 0, true, 0⟩
    next := 1
    freed := false
    replies := replies
    calls := 0
    created := 0
    log := []
    fault := false }

/-- A call of a node operation; `retain` is `vfs_increment_count`. -/
inductive NodeCall where
  | opening (n : Nat) (owners : List (List UInt8)) (name : List UInt8) (type : VfsType)
      (mode : Nat) (memory : Bool)
  | retain (n : Nat)
  | release (n : Nat)
  | readWrite (n offset size : Nat) (write : Bool)
  | append (n size : Nat)
  | sync (n : Nat)
  | readdir (n offset : Nat)
  | stat (n : Nat)
  | truncate (n size : Nat)
  | remove (n : Nat) (owners : List (List UInt8)) (name : List UInt8) (dir : Bool)

def NodeCall.node : NodeCall → Nat
  | .opening n .. => n
  | .retain n => n
  | .release n => n
  | .readWrite n .. => n
  | .append n _ => n
  | .sync n => n
  | .readdir n _ => n
  | .stat n => n
  | .truncate n _ => n
  | .remove n .. => n

/-- Names are components of a path: those of owners are not empty, and no
name has a slash in it. -/
def NodeCall.ValidNames : NodeCall → Prop
  | .opening _ owners name .. => (∀ o ∈ owners, o ≠ [] ∧ 0x2F ∉ o) ∧ 0x2F ∉ name
  | .remove _ owners name _ => (∀ o ∈ owners, o ≠ [] ∧ 0x2F ∉ o) ∧ 0x2F ∉ name
  | _ => True

def FatIo.exec (io : FatIo) : NodeCall → Option NodeCode × FatIo
  | .opening n owners name type mode memory =>
    let (r, _, io) := nOpen io n owners name type mode memory
    (r, io)
  | .retain n => (none, io.setNode n { io.node n with count := (io.node n).count + 1 })
  | .release n => (none, nRelease io n)
  | .readWrite n offset size write =>
    let (r, _, io) := nReadWrite io n offset size write
    (r, io)
  | .append n size =>
    let (r, _, io) := nAppend io n size
    (r, io)
  | .sync _ => nSync io
  | .readdir n offset =>
    let (r, _, io) := nReaddir io n offset
    (r, io)
  | .stat n =>
    let (r, _, io) := nStat io n
    (r, io)
  | .truncate n size => nTruncate io n size
  | .remove n owners name dir => nRemove io n owners name dir

def FatIo.Live (io : FatIo) (n : Nat) : Prop := io.freed = false ∧ ∃ k, io.nodeArray k = some n

def nodeStep (io : FatIo) (c : NodeCall) (io' : FatIo) : Prop :=
  io.Live c.node ∧ c.ValidNames ∧ io' = (io.exec c).2

end Dancy.FatVfs
