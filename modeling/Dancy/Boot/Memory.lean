import Dancy.Archive.Source
import Dancy.Archive.Split
import Dancy.Lib.Run
import Dancy.Lib.Segments

/-!
# The memory map of the init module (`boot/init/memory.c`)

The map is the array `memory_map` up to `memory_entries`, as a list: each
entry is an area from its base to the base of the next one, the last entry
reaches to the top of the address space. Allocated areas have a type of
their own, with a number. `memory_lock` is free whenever a call starts.
-/

namespace Dancy.Boot

open Dancy.Lib Dancy.Zip

/-- `struct b_mem_raw`; `other` stands for its last sixteen bytes. -/
structure BMem where
  (type flags base other : Nat)
deriving DecidableEq

def bMemNormal : Nat := 0x00000007
def bMemBootLoader : Nat := 0x80000004
def bMemUefiSyscalls : Nat := 0x80000005
def bMemInitExecutable : Nat := 0x80860000
def bMemInitAllocMin : Nat := 0x80860001
def bMemInitAllocMax : Nat := 0x8086FFFF
def bMemKernel : Nat := 0xE0000000
def bMemKernelReserved : Nat := 0xE000FFFF
def bMemNotReported : Nat := 0xFFFFFFFF

def baseLow (m : BMem) : Nat := m.base % 0x100000000
def baseHigh (m : BMem) : Nat := m.base / 0x100000000

/-- `B_FLAG_VALID_ENTRY` and `B_FLAG_NO_INIT_ALLOC`. -/
def validEntry (m : BMem) : Bool := m.flags.testBit 0
def noInitAlloc (m : BMem) : Bool := m.flags.testBit 16

def isAlloc (m : BMem) : Bool := decide (bMemInitAllocMin ≤ m.type ∧ m.type ≤ bMemInitAllocMax)

structure MemState where
  map : List BMem
  mapAddr : Nat
  disabled : Bool
deriving DecidableEq

def addrSpace : Nat := 0x10000000000000000

/-- The loop of `memory_init` over an entry and the ones after it. -/
def checkAreas (mapAddr : Nat) : List BMem → Bool
  | [] => true
  | m :: rest =>
    let e := Segments.nextBase BMem.base addrSpace rest
    decide (m.base < e) &&
    (if m.type = bMemBootLoader ∨ m.type = bMemUefiSyscalls then true
    else if m.type = bMemInitExecutable then
      decide (mapAddr = m.base + 0x10000 ∧ m.base % 0x10000 = 0 ∧ e - m.base = 0x20000)
    else true) && checkAreas mapAddr rest

/-- `memory_types` of `memory_init`: all three kinds of areas were seen. -/
def allTypes (map : List BMem) : Bool :=
  map.any (fun m => m.type = bMemBootLoader ∨ m.type = bMemUefiSyscalls) &&
    map.any (fun m => m.type = bMemInitExecutable) &&
    map.any (fun m => m.base = 0x100000000)

/-- `memory_init`; the map ends with an empty entry. -/
def memoryInit (mapAddr : Nat) (map : List BMem) : Option MemState :=
  match map with
  | [] => none
  | m :: _ =>
    if m.base ≠ 0 then none
    else if map.length > 2048 - 512 then none
    else if checkAreas mapAddr map && allTypes map then some ⟨map, mapAddr, false⟩ else none

/-- The first loop of `fix_memory_map`: allocated areas are numbered. -/
def renumber : Nat → List BMem → List BMem
  | _, [] => []
  | a, m :: rest =>
    if isAlloc m then { m with type := bMemInitAllocMin + a } :: renumber (a + 1) rest
    else m :: renumber a rest

/-- Whether two entries have the same type, flags and other bytes. -/
def sameArea (m1 m2 : BMem) : Bool :=
  decide (m1.type = m2.type ∧ m1.flags = m2.flags ∧ m1.other = m2.other)

/-- The second loop of `fix_memory_map`, at the entry `m1` and those after
it: equal neighbours are merged, but never at `0x100000000`. -/
def mergeAreas : BMem → List BMem → List BMem
  | m1, [] => [m1]
  | m1, m2 :: rest =>
    if baseLow m2 = 0 ∧ baseHigh m2 = 1 then m1 :: mergeAreas m2 rest
    else
      let m1 := if m1.base = m2.base then m2 else m1
      if sameArea m1 m2 then mergeAreas m1 rest else m1 :: mergeAreas m2 rest

def fixMemoryMap : List BMem → List BMem
  | [] => []
  | m :: rest => mergeAreas m (renumber 0 rest)

/-! ## Allocating -/

/-- Bytes left over at the end of an area by the alignment. -/
def remainderOf (e size alignment : Nat) : Nat :=
  if alignment ≠ 0 then (e - size) % alignment else 0

/-- Whether the area of `m1`, which ends at `m2`, has room. -/
def fitsArea (mapAddr alignment size : Nat) (m1 m2 : BMem) : Bool :=
  let b := baseLow m1
  let e := baseLow m2
  decide (baseHigh m2 = 0 ∧ baseLow m2 ≤ mapAddr ∧ m1.type = bMemNormal ∧ size ≤ e - b) &&
    !noInitAlloc m1 && decide (size + remainderOf e size alignment ≤ e - b)

/-- The search of `memory_aligned_alloc` from entry `i` down to entry `2`. -/
def findArea (map : List BMem) (mapAddr alignment size : Nat) : Nat → Option Nat
  | i + 2 =>
    match map[i + 1]?, map[i + 2]? with
    | some m1, some m2 =>
      if fitsArea mapAddr alignment size m1 m2 then some (i + 2)
      else findArea map mapAddr alignment size (i + 1)
    | _, _ => none
  | _ => none

def allocType (disabled : Bool) (addr next : Nat) : Nat :=
  if !disabled then bMemInitAllocMin
  else if addr < 0x10000000 ∧ next % 0x400000 = 0 then bMemKernel
  else bMemKernelReserved

/-- The entry `i - 1` is copied, as the area from `addr` on. -/
def insertArea (s : MemState) (i addr : Nat) (m1 m2 : BMem) : MemState :=
  let new := { m1 with type := allocType s.disabled addr (baseLow m2), base := addr }
  { s with map := fixMemoryMap (s.map.take i ++ new :: s.map.drop i) }

/-- `memory_aligned_alloc`; `none` is NULL. -/
def memoryAlignedAlloc (s : MemState) (alignment size : Nat) : Option Nat × MemState :=
  if alignment > 0x00400000 ∨ size = 0 ∨ size ≥ 0x7FFFFFFF then (none, s)
  else
    match findArea s.map s.mapAddr alignment size (s.map.length - 1) with
    | none => (none, s)
    | some i =>
      match s.map[i - 1]?, s.map[i]? with
      | some m1, some m2 =>
        let addr := baseLow m2 - size - remainderOf (baseLow m2) size alignment
        if addr = 0 ∨ s.map.length ≥ 2040 then (none, s)
        else if !s.disabled ∧ (s.mapAddr ≤ addr ∨ s.mapAddr - addr > 0x7F000000) then (none, s)
        else (some addr, insertArea s i addr m1 m2)
      | _, _ => (none, s)

/-- `aligned_alloc`, `malloc` and `calloc`: the lock is never released once
the manager was disabled. -/
def alignedAlloc (s : MemState) (alignment size : Nat) : Option Nat × MemState :=
  if s.disabled then (none, s) else memoryAlignedAlloc s alignment size

def malloc (s : MemState) (size : Nat) : Option Nat × MemState := alignedAlloc s 16 size

def calloc (s : MemState) (nmemb size : Nat) : Option Nat × MemState :=
  let total := nmemb * size % addrSpace
  if total = 0 ∨ total / nmemb ≠ size then (none, s) else alignedAlloc s 16 total

/-- The loop of `free`. -/
def freeArea (addr : Nat) : List BMem → List BMem
  | [] => []
  | m :: rest =>
    if !validEntry m then m :: rest
    else if m.base = addr ∧ isAlloc m then { m with type := bMemNormal } :: rest
    else m :: freeArea addr rest

def free (s : MemState) (ptr : Nat) : MemState :=
  if ptr = 0 ∨ s.disabled then s
  else
    match s.map with
    | [] => s
    | m :: rest => { s with map := fixMemoryMap (m :: freeArea ptr rest) }

def bMemDatabaseMin : Nat := 0xDB000000

/-- The memory map up to its end, which is an entry of base zero. -/
def mapEntries : List BMem → List BMem
  | [] => []
  | m :: map => m :: map.takeWhile fun m => m.base ≠ 0

/-- The first loop of `db_init`: `db_count` and `db_array`. `mem` tells which
database file is at an address; `none` is a corrupted map. -/
def dbInitLoop (mem : Nat → DbFile) : List BMem → Nat → List (Option DbFile) →
    Option (Nat × List (Option DbFile))
  | [], db_count, db_array => some (db_count, db_array)
  | m :: map, db_count, db_array =>
    if m.type < bMemDatabaseMin ∨ m.type > bMemDatabaseMin + 999 then
      dbInitLoop mem map db_count db_array
    else
      let t := m.type - bMemDatabaseMin
      let f := mem m.base
      if LE32 f.bytes 0 ≠ 0x0D54418D ∨ f.number ≠ t then none
      else dbInitLoop mem map (if db_count < t + 1 then t + 1 else db_count)
        (db_array.set t (some f))

/-- The second loop, of the number of rounds left: the gaps are closed. -/
def dbCompact : Nat → Nat → Nat → List (Option DbFile) → Nat × List (Option DbFile)
  | 0, _, c, db_array => (c, db_array)
  | left + 1, i, c, db_array =>
    match db_array.getD i none with
    | none => dbCompact left (i + 1) c db_array
    | some f =>
      let db_array := db_array.set c (some f)
      dbCompact left (i + 1) (c + 1) (if c ≠ i then db_array.set i none else db_array)

/-- `db_init`: the first `db_count` elements of `db_array`. -/
def dbInit (mem : Nat → DbFile) (map : List BMem) : Option (List DbFile) :=
  match dbInitLoop mem (mapEntries map) 0 (List.replicate 1000 none) with
  | none => none
  | some (db_count, db_array) =>
    match dbCompact db_count 0 0 db_array with
    | (c, db_array) => some ((db_array.take c).filterMap id)

/-! ## The bit array and its callback -/

/-- The bit array of `db_read`, whose `data` is a place in a file, and the
variables of the callback. -/
structure DbReader where
  (block pos size state0 state1 db_offset : Nat)
  db_callback_state : Int
  (outside beyond : Bool)

section Reader

variable (db : List DbFile)

/-- The number of the `q`-th file. -/
def dbNumber (q : Nat) : Nat := (db[q]?.map DbFile.number).getD 0

/-- `bitarray_clear`. -/
def DbReader.clear (s : DbReader) : DbReader :=
  { s with block := 0, pos := 0, size := 0, state0 := 0, state1 := 0 }

/-- The state of the callback at the `q`-th file: in a header or its data the
numbers of the files have to go on. -/
def dbState (s : DbReader) (q : Nat) : Int :=
  if s.db_callback_state = 1 ∧ q > 0 ∧ dbNumber db (q - 1) + 1 ≠ dbNumber db q then -1
  else s.db_callback_state

/-- `db_callback`; `false` is `-1`. -/
def dbCallback (s : DbReader) : Bool × DbReader :=
  let q := s.db_offset / 65504
  let r := s.db_offset % 65504
  if q ≥ db.length then (false, s)
  else
    let state := dbState db s q
    if state < 0 then (false, { s with db_callback_state := state })
    else (true, { s with block := q, pos := 32 + r, size := 65504 - r, db_callback_state := state,
                         db_offset := s.db_offset + (65504 - r) })

/-- `*b->data++`, when there is a byte left. -/
def DbReader.load (s : DbReader) : DbReader :=
  { s with
    pos := s.pos + 1
    size := s.size - 1
    state0 := 8
    state1 := ((db[s.block]?.map fun f : DbFile => f.bytes.getD s.pos 0).getD 0).toNat
    outside := s.outside || !decide (s.block < db.length ∧ 32 ≤ s.pos ∧ s.pos < 65536) }

def DbReader.takeBit (s : DbReader) : Option Bool × DbReader :=
  (some (s.state1 % 2 = 1), { s with state0 := s.state0 - 1, state1 := s.state1 / 2 })

/-- One round of `bitarray_fetch`, which takes a bit. -/
def dbBit (s : DbReader) : Option Bool × DbReader :=
  if s.state0 ≠ 0 then s.takeBit
  else if s.size ≠ 0 then (s.load db).takeBit
  else
    match dbCallback db s.clear with
    | (false, s) => (none, s)
    | (true, s) => if s.size = 0 then (none, s) else (s.load db).takeBit

/-- `bitarray_fetch`. -/
def dbFetch (bits : Nat) (s : DbReader) : Option Nat × DbReader := fetchFrom (dbBit db) bits s

/-- `db_fast_forward`; each round takes a byte or more, so `bytes` of them
are enough. -/
def dbSkip : Nat → Nat → DbReader → DbReader
  | 0, _, s => s
  | left + 1, bytes, s =>
    if bytes = 0 then s
    else if s.size > bytes then { s with pos := s.pos + bytes, size := s.size - bytes }
    else if s.size ≠ 0 then dbSkip left (bytes - s.size) { s with block := 0, pos := 0, size := 0 }
    else
      match dbFetch db 8 s with
      | (none, s) => s
      | (some _, s) => dbSkip left (bytes - 1) s

def dbFastForward (s : DbReader) (bytes : Nat) : DbReader := dbSkip db bytes bytes s

def pkMax : Nat := 268435456

/-- The fields of a local header, as they are fetched. -/
structure PkFields where
  (method crc_low crc_high size_compressed size_uncompressed name_length : Option Nat)
  extra_length : Option Nat

structure PkHeader where
  (method crc32 size_compressed size_uncompressed name_length extra_length : Nat)

/-- The tests of a header; `none` is to go on with the scan. -/
def PkFields.header (f : PkFields) : Option PkHeader :=
  match f.method, f.size_compressed, f.size_uncompressed, f.name_length, f.extra_length with
  | some method, some size_compressed, some size_uncompressed, some name_length,
      some extra_length =>
      if method ≠ 0 ∧ method ≠ 8 then none
      else if size_compressed > pkMax then none
      else if size_uncompressed > pkMax then none
      else if name_length = 0 then none
      else if method = 0 ∧ size_compressed ≠ size_uncompressed then none
      else
        let pk_crc32 := match f.crc_low, f.crc_high with
          | some t1, some t2 => t1 ||| (t2 <<< 16)
          | _, _ => 0
        some ⟨method, pk_crc32, size_compressed, size_uncompressed, name_length, extra_length⟩
  | _, _, _, _, _ => none

def dbFields (s : DbReader) : PkFields × DbReader :=
  let method := dbFetch db 16 (dbFastForward db s 4)
  let crc_low := dbFetch db 16 (dbFastForward db method.2 4)
  let crc_high := dbFetch db 16 crc_low.2
  let size_compressed := dbFetch db 32 crc_high.2
  let size_uncompressed := dbFetch db 32 size_compressed.2
  let name_length := dbFetch db 16 size_uncompressed.2
  let extra_length := dbFetch db 16 name_length.2
  (⟨method.1, crc_low.1, crc_high.1, size_compressed.1, size_uncompressed.1, name_length.1,
    extra_length.1⟩, extra_length.2)

/-- What a round of `db_read` comes to, before it compares a name: the end of
the files, the next round, or a header. -/
inductive Scan where
  | stop (s : DbReader)
  | again (padding_bytes : Nat) (s : DbReader)
  | header (h : PkHeader) (s : DbReader)

def dbScan (padding_bytes : Nat) (s : DbReader) : Scan :=
  match dbFetch db 8 { s with db_callback_state := 0 } with
  | (none, s) => .stop s
  | (some pk_header, s) =>
    if pk_header = 0x00 then
      if padding_bytes > 64 then .again 0 s.clear else .again (padding_bytes + 1) s
    else if pk_header ≠ 0x50 then .again 0 s
    else
      match dbFetch db 24 { s with db_callback_state := 1 } with
      | (pk_header, s) =>
        if pk_header ≠ some 0x0004034B then .again 0 s
        else
          match dbFields db s with
          | (f, s) =>
            match f.header with
            | none => .again 0 s
            | some h => .header h s

/-! ## `db_read` -/

/-- `name[i]`; `after` is the memory after the null character. -/
def nameChar (name : CString) (after : Nat → UInt8) (i : Nat) : UInt8 :=
  if i < name.chars.length then name.chars.getD i 0
  else if i = name.chars.length then 0
  else after (i - name.chars.length - 1)

variable (name : CString) (after : Nat → UInt8)

/-- The loop that compares a name, of the number of characters left. -/
def compareName : Nat → Nat → Bool → DbReader → Bool × DbReader
  | 0, _, err, s => (err, s)
  | left + 1, i, err, s =>
    match dbFetch db 8 s with
    | (c1, s) =>
      compareName left (i + 1) (err || c1 != some (nameChar name after i).toNat)
        { s with beyond := s.beyond || decide (i > name.chars.length) }

/-- The loop that copies a stored file; `none` is a missing byte. -/
def copyStored : Nat → List UInt8 → DbReader → Option (List UInt8) × DbReader
  | 0, out, s => (some out, s)
  | out_size + 1, out, s =>
    match dbFetch db 8 s with
    | (none, s) => (none, s)
    | (some c, s) => copyStored out_size (out ++ [UInt8.ofNat c]) s

/-- What `db_read` returns, the bytes of `*buf`, and the reader at the end. -/
structure DbResult where
  ret : Nat
  buf : List UInt8
  reader : DbReader

/-- The bytes of a file, stored or deflated; `none` is out of fuel, and the
bytes are missing if they can not be read. -/
def unpack (fuel : Nat) (h : PkHeader) (s : DbReader) : Option (Option (List UInt8) × DbReader) :=
  if h.method = 0 then some (copyStored db h.size_uncompressed [] s)
  else
    match inflateFrom (dbBit db) fuel s h.size_uncompressed with
    | none => none
    | some r => some (if r.ret ≠ 0 then none else some r.out, r.source)

/-- The file of a header is read; `malloc` tells which sizes are allocated. -/
def dbExtract (malloc : Nat → Bool) (fuel : Nat) (h : PkHeader) (s : DbReader) : Option DbResult :=
  if h.size_uncompressed = 0 then some ⟨0, [], s⟩
  else if !malloc h.size_uncompressed then some ⟨2, [], s⟩
  else
    match unpack db fuel h s with
    | none => none
    | some (none, s) => some ⟨3, [], s⟩
    | some (some out, s) =>
      if s.db_callback_state < 0 then some ⟨3, [], s⟩
      else if h.crc32 ≠ (crc32 out).toNat then some ⟨4, [], s⟩
      else some ⟨0, out, s⟩

/-- The loop of `db_read`; `none` is out of fuel. -/
def dbLoop (malloc : Nat → Bool) : Nat → Nat → DbReader → Option DbResult
  | 0, _, _ => none
  | fuel + 1, padding_bytes, s =>
    match dbScan db padding_bytes s with
    | .stop s => some ⟨1, [], s⟩
    | .again padding_bytes s => dbLoop malloc fuel padding_bytes s
    | .header h s =>
      match compareName db name after h.name_length 0 false s with
      | (err, s) =>
        let s := dbFastForward db s h.extra_length
        if err then dbLoop malloc fuel 0 (dbFastForward db s h.size_compressed)
        else dbExtract db malloc fuel h s

/-- The reader after `bitarray_init`. -/
def dbStart : DbReader := ⟨0, 0, 0, 0, 0, 0, 0, false, false⟩

def dbRead (malloc : Nat → Bool) (fuel : Nat) : Option DbResult :=
  if db.length = 0 then some ⟨1, [], dbStart⟩ else dbLoop db name after malloc fuel 0 dbStart

end Reader

end Dancy.Boot
