import Dancy.Boot.MemoryRuns
import Dancy.Lib.Sort

/-!
# The memory map of the loader (`boot/uefi/memory.c`)

The firmware's map is read, checked and turned into the native map: marks
for the starts and ends of areas are written behind each other, sorted,
and thinned out. What the firmware answers is a parameter. The loader is a
64-bit program, addresses are numbers below `addrSpace`.
-/

namespace Dancy.Boot.Uefi

open Dancy.Lib Dancy.Lib.Segments List Option

/-- `EFI_MEMORY_DESCRIPTOR`. -/
structure EfiDescriptor where
  (type physicalAddress numberOfPages attr : Nat)
deriving DecidableEq

def efiConventionalMemory : Nat := 7
def bMemDatabaseMin : Nat := 0xDB000000

/-- `addr + pages * 4096` of 64-bit numbers. -/
def pagesEnd (addr pages : Nat) : Nat := (addr + pages * 4096 % addrSpace) % addrSpace

def EfiDescriptor.next (d : EfiDescriptor) : Nat := pagesEnd d.physicalAddress d.numberOfPages

/-- What `GetMemoryMap` does: its status, the two sizes it sets, and the
descriptor at each place of the buffer. -/
structure MapReply where
  success : Bool
  (mapSize descriptorSize : Nat)
  descriptors : Nat → EfiDescriptor

def qsortMap (d1 d2 : EfiDescriptor) : Int :=
  if d1.physicalAddress < d2.physicalAddress then -1
  else if d1.physicalAddress > d2.physicalAddress then 1
  else 0

/-- The first check of `memory_update_map`. -/
def corrupted (d : EfiDescriptor) : Bool :=
  decide (d.physicalAddress % 4096 ≠ 0 ∨ d.numberOfPages ≥ 0x10000000000000 ∨
    d.physicalAddress ≥ d.next)

def overlapping : List EfiDescriptor → Bool
  | d1 :: d2 :: rest => decide (d2.physicalAddress < d1.next) || overlapping (d2 :: rest)
  | _ => false

/-- `memory_update_map`; `none` is an error, otherwise the sorted map. -/
def memoryUpdateMap (r : MapReply) : Option (List EfiDescriptor) :=
  if !r.success ∨ r.mapSize ≥ 0x10000 then none
  else if r.descriptorSize < 40 then none
  else
    let entries := r.mapSize / r.descriptorSize
    if entries < 4 then none
    else
      let map := qsort qsortMap ((range entries).map r.descriptors)
      if map.any corrupted || overlapping map then none else some map

/-! ## Allocations of the loader -/

/-- An entry of `Allocations`. -/
structure Allocation where
  (memory pages attr : Nat)
deriving DecidableEq

def Allocation.next (a : Allocation) : Nat := pagesEnd a.memory a.pages

def staticPages : Nat := 0x4000
def maxAddress : Nat := 0xEFFFFFFF
def noMemory : Nat := 0xFFFFFFFFFFFFFFFF

/-- A turn of the loop of `find_free_memory`, with `max_pages`, `*mem` and `*att`. -/
def searchFree (pages : Nat) (found : Nat × Nat × Nat) (d : EfiDescriptor) : Nat × Nat × Nat :=
  let b := d.physicalAddress
  let e := (d.next + (addrSpace - 1)) % addrSpace
  if d.type ≠ efiConventionalMemory ∨ b ≥ e ∨ e > maxAddress then found
  else if pages = 0 then
    if d.numberOfPages ≥ found.1 then (d.numberOfPages, b, d.attr) else found
  else if d.numberOfPages ≥ pages then
    (found.1, b + (d.numberOfPages - pages) * 4096, d.attr)
  else found

/-- `find_free_memory`: the number of pages (zero when there are none),
`*mem` and `*att`. When the map cannot be read it is one page at the top. -/
def findFreeMemory (r : MapReply) (pages : Nat) : Nat × Nat × Nat :=
  match memoryUpdateMap r with
  | none => (1, noMemory, 0)
  | some map =>
    let found := map.foldl (searchFree pages) (if pages ≠ 0 then pages else 16, noMemory, 0)
    if found.2.1 = noMemory then (0, noMemory, 0) else found

/-- What `memory_init` sets up; `segments` is `memory_in_x64[0]`. -/
structure Loader where
  (allocation0 allocation1 : Allocation)
  segments : Nat
  memoryMap : List EfiDescriptor
deriving DecidableEq

def Loader.allocations (ld : Loader) : List Allocation := [ld.allocation0, ld.allocation1]

/-- `memory_in_x64`, `memory_db_all` and `in_x64_syscalls`. -/
def Loader.inX64 (ld : Loader) (i : Nat) : Nat := ld.segments + i * 0x10000
def Loader.dbAll (ld : Loader) (i : Nat) : Nat := ld.inX64 2 + i * 0x10000
def Loader.inX64Syscalls (ld : Loader) : Nat := ld.dbAll 1000

/-- What the firmware does in `memory_init`: three maps, and whether
`AllocatePages` gives the pages at the address it was asked for. -/
structure Firmware where
  map0 : MapReply
  allocate0 : Bool
  map1 : MapReply
  allocate1 : Bool
  map2 : MapReply

def badAddress (memory : Nat) : Bool := decide (memory % 4096 ≠ 0 ∨ memory ≥ maxAddress)

/-- `memory_init`; the allocated pages for the slots are cleared. -/
def memoryInit (f : Firmware) : Option Loader :=
  let (pages0, memory0, attr0) := findFreeMemory f.map0 staticPages
  if pages0 = 0 ∨ !f.allocate0 ∨ badAddress memory0 then none
  else
    let (found, area, attr1) := findFreeMemory f.map1 0
    let memory1 := (area + found / 4 * 4096) % addrSpace
    let pages1 := found - found / 4
    if found = 0 ∨ !f.allocate1 ∨ badAddress memory1 ∨ memory1 ≥ memory0 then none
    else
      match memoryUpdateMap f.map2 with
      | none => none
      | some map =>
        some ⟨⟨memory0, staticPages, attr0⟩, ⟨memory1, pages1, attr1⟩,
          (memory0 + 0xFFFF) % 0x100000000 / 0x10000 * 0x10000, map⟩

/-! ## The native map -/

def emptyEntry : BMem := ⟨0, 0, 0, 0⟩

def efiAttributes (m : BMem) : Nat := m.other % addrSpace

/-- The array `native_map`: the entries that were written, the last one
first, and the memory after them. -/
structure NativeMap where
  (written after : List BMem)

def maxEntries : Nat := 2019

/-- Two fields of an entry are set, the other ones are left as they are. -/
def mark (type base : Nat) (m : BMem) : BMem := { m with type := type, base := base }

def markEfi (type base attr : Nat) (m : BMem) : BMem :=
  { mark type base m with other := m.other / addrSpace * addrSpace + attr % addrSpace }

def NativeMap.put (n : NativeMap) (f : BMem → BMem) : NativeMap :=
  ⟨f (n.after.headD emptyEntry) :: n.written, n.after.tail⟩

def NativeMap.full (n : NativeMap) : Bool := decide (maxEntries ≤ n.written.length)

/-- An entry is deleted: `memmove` leaves the one after the last twice. -/
def closeGap (after : List BMem) : List BMem := after.headD emptyEntry :: after

/-- The loop that keeps the allocated areas of the init module only. -/
def keepAllocs : List BMem → NativeMap → NativeMap
  | [], n => n
  | m :: rest, n =>
    if isAlloc m then keepAllocs rest { n with written := m :: n.written }
    else keepAllocs rest { n with after := closeGap n.after }

def inside (ld : Loader) (x : Nat) : Bool :=
  ld.allocations.any fun a => decide (a.memory ≤ x ∧ x < a.next)

/-- The loop over `MemoryMap`. -/
def putDescriptors (ld : Loader) : List EfiDescriptor → NativeMap → Option NativeMap
  | [], n => some n
  | d :: rest, n =>
    if inside ld d.physicalAddress || inside ld (d.next - 1) then putDescriptors ld rest n
    else
      let n := n.put (markEfi d.type d.physicalAddress d.attr)
      let n := n.put (markEfi bMemNotReported d.next 0)
      if n.full then none else putDescriptors ld rest n

/-- The loop over `Allocations`. -/
def putAllocations : List Allocation → NativeMap → NativeMap
  | [], n => n
  | a :: rest, n =>
    let n := n.put (markEfi bMemNormal a.memory a.attr)
    putAllocations rest (n.put (markEfi bMemNotReported a.next 0))

/-- `db i` is the first number in the slot of a database. -/
def databaseType (db : Nat → Nat) (i : Nat) : Nat :=
  if db i ≠ 0 then bMemDatabaseMin + i else bMemNormal

/-- The loop over the databases, with `left` of them left. -/
def putDatabases (ld : Loader) (db : Nat → Nat) : Nat → Nat → NativeMap → Option NativeMap
  | 0, _, n => some n
  | left + 1, i, n =>
    let n := n.put (markEfi (databaseType db i) (ld.dbAll i) ld.allocation0.attr)
    if n.full then none else putDatabases ld db left (i + 1) n

/-- All the marks, from the entries that the map has. -/
def putMarks (ld : Loader) (db : Nat → Nat) (entries after : List BMem) : Option NativeMap :=
  let n := keepAllocs entries ⟨[], after⟩
  let n := (n.put (mark bMemNotReported 0)).put (mark bMemNotReported 0x100000000)
  match putDescriptors ld ld.memoryMap n with
  | none => none
  | some n =>
    let n := putAllocations ld.allocations n
    let n := n.put (markEfi bMemInitExecutable (ld.inX64 0) ld.allocation0.attr)
    match putDatabases ld db 1000 0 n with
    | none => none
    | some n =>
      let n := n.put (markEfi bMemUefiSyscalls ld.inX64Syscalls ld.allocation0.attr)
      some (n.put (markEfi bMemNormal (ld.inX64Syscalls + 4096) ld.allocation0.attr))

/-- `B_FLAG_VALID_ENTRY`, and `B_FLAG_NO_INIT_ALLOC` of the first export. -/
def setFlags (ld : Loader) (finalize : Bool) (m : BMem) : BMem :=
  if m.type = bMemNormal ∧ finalize = false ∧ m.base ≠ ld.allocation1.memory then
    { m with flags := 0x10001 }
  else { m with flags := 1 }

/-- A type as a 32-bit number plus one: `0xFFFFFFFF` comes last. -/
def rank (m : BMem) : Nat := (m.type + 1) % 0x100000000

def qsortNativeMap (m1 m2 : BMem) : Int :=
  if m1.base < m2.base then -1
  else if m1.base > m2.base then 1
  else if rank m1 > rank m2 then -1
  else if rank m1 < rank m2 then 1
  else 0

def sameBase (m1 m2 : BMem) : Bool := decide (m1.base = m2.base)

def mergeable (m1 m2 : BMem) : Bool :=
  !decide (m1.base ≤ 0xFFFFFFFF ∧ m2.base = 0x100000000) &&
    decide (m1.type = m2.type ∧ m1.flags = m2.flags ∧ efiAttributes m1 = efiAttributes m2)

/-- The two loops that delete entries, at the entry `m1` and those after it. -/
def deleteNext (drop : BMem → BMem → Bool) : BMem → List BMem → List BMem → List BMem × List BMem
  | m1, [], after => ([m1], after)
  | m1, m2 :: rest, after =>
    if drop m1 m2 then deleteNext drop m1 rest (closeGap after)
    else
      let (entries, after) := deleteNext drop m2 rest after
      (m1 :: entries, after)

def deleteEntries (drop : BMem → BMem → Bool) (entries after : List BMem) :
    List BMem × List BMem :=
  match entries with
  | [] => ([], after)
  | m :: rest => deleteNext drop m rest after

def increasing : List BMem → Bool
  | m1 :: m2 :: rest => decide (m1.base < m2.base) && increasing (m2 :: rest)
  | _ => true

def isEmptyEntry (m : BMem) : Bool :=
  decide (m.type = 0 ∧ m.flags = 0 ∧ m.base = 0 ∧ efiAttributes m = 0)

def emptyAfter (after : List BMem) : Bool :=
  (range 4).all fun i => (after[i]?).any isEmptyEntry

/-- What is left to do when all marks are written. -/
def finishMap (ld : Loader) (finalize : Bool) (n : NativeMap) : Option (List BMem × List BMem) :=
  let entries := qsort qsortNativeMap (n.written.map (setFlags ld finalize)).reverse
  let (entries, after) := deleteEntries sameBase entries n.after
  let (entries, after) := deleteEntries mergeable entries after
  if increasing entries && emptyAfter after then some (entries, after) else none

/-- `memory_export_map` on the array that holds the native map: the entries
and the memory after them, or `none` when it returns an error, with the
array cleared. -/
def memoryExportMap (ld : Loader) (db : Nat → Nat) (finalize : Bool) (nativeMap : List BMem) :
    Option (List BMem × List BMem) :=
  let entries := nativeMap.takeWhile validEntry
  if maxEntries ≤ entries.length then none
  else
    match putMarks ld db entries (nativeMap.drop entries.length) with
    | none => none
    | some n => finishMap ld finalize n

variable {ld : Loader} {db : Nat → Nat} {entries after : List BMem} {n n' : NativeMap}
  {t b t' b' x : Nat}

/-! ## What is written -/

/-- Whether an entry of a type and a base was written. -/
def Has (n : NativeMap) (t b : Nat) : Prop := ∃ m ∈ n.written, m.type = t ∧ m.base = b

theorem has_put {f : BMem → BMem} (hf : ∀ m, (f m).type = t' ∧ (f m).base = b') :
    Has (n.put f) t b ↔ t = t' ∧ b = b' ∨ Has n t b := by
  obtain ⟨htype, hbase⟩ := hf (n.after.headD emptyEntry)
  simp only [Has, NativeMap.put, mem_cons, exists_eq_or_imp, htype, hbase]
  rw [eq_comm, eq_comm (a := b)]

theorem has_mark : Has (n.put (mark t' b')) t b ↔ t = t' ∧ b = b' ∨ Has n t b :=
  has_put fun _ => ⟨rfl, rfl⟩

theorem has_markEfi {attr : Nat} :
    Has (n.put (markEfi t' b' attr)) t b ↔ t = t' ∧ b = b' ∨ Has n t b :=
  has_put fun _ => ⟨rfl, rfl⟩

theorem has_keepAllocs (entries : List BMem) (n : NativeMap) :
    Has (keepAllocs entries n) t b ↔
      (∃ m ∈ entries, isAlloc m = true ∧ m.type = t ∧ m.base = b) ∨ Has n t b := by
  induction entries generalizing n with
  | nil => simp [keepAllocs]
  | cons m entries ih =>
    rw [keepAllocs]
    by_cases hm : isAlloc m = true
    · rw [if_pos hm, ih]
      simp only [Has]
      grind
    · rw [if_neg hm, ih]
      simp only [Has, mem_cons, exists_eq_or_imp, hm, false_and, false_or, Bool.false_eq_true]

def kept (ld : Loader) (d : EfiDescriptor) : Prop :=
  inside ld d.physicalAddress = false ∧ inside ld (d.next - 1) = false

theorem has_putDescriptors (ds : List EfiDescriptor) (n : NativeMap)
    (h : putDescriptors ld ds n = some n') :
    Has n' t b ↔ (∃ d ∈ ds, kept ld d ∧
      (t = d.type ∧ b = d.physicalAddress ∨ t = bMemNotReported ∧ b = d.next)) ∨ Has n t b := by
  induction ds generalizing n with
  | nil =>
    obtain rfl : n = n' := some.inj h
    simp
  | cons d ds ih =>
    rw [putDescriptors] at h
    split at h
    · rename_i hskip
      have hkept : ¬ kept ld d := by
        rintro ⟨h1, h2⟩
        rw [h1, h2] at hskip
        cases hskip
      grind
    · rename_i hkeep
      have hkept : kept ld d := by
        rw [Bool.or_eq_true, not_or, Bool.not_eq_true, Bool.not_eq_true] at hkeep
        exact hkeep
      simp only at h
      split at h
      · cases h
      · rw [ih _ h, has_markEfi, has_markEfi]
        grind

theorem has_putAllocations (as : List Allocation) (n : NativeMap) :
    Has (putAllocations as n) t b ↔ (∃ a ∈ as,
      t = bMemNormal ∧ b = a.memory ∨ t = bMemNotReported ∧ b = a.next) ∨ Has n t b := by
  induction as generalizing n with
  | nil => simp [putAllocations]
  | cons a as ih =>
    rw [putAllocations]
    rw [ih, has_markEfi, has_markEfi]
    grind

theorem has_putDatabases (left i : Nat) (n : NativeMap)
    (h : putDatabases ld db left i n = some n') :
    Has n' t b ↔
      (∃ j, i ≤ j ∧ j < i + left ∧ t = databaseType db j ∧ b = ld.dbAll j) ∨ Has n t b := by
  induction left generalizing i n with
  | zero =>
    obtain rfl : n = n' := some.inj h
    have hnone : ¬ ∃ j, i ≤ j ∧ j < i + 0 ∧ t = databaseType db j ∧ b = ld.dbAll j := by
      omega
    rw [or_iff_right hnone]
  | succ left ih =>
    rw [putDatabases] at h
    split at h
    · cases h
    rw [ih _ _ h, has_markEfi]
    constructor
    · rintro (⟨j, h1, h2, h3⟩ | ⟨ht, hb⟩ | hn)
      · exact .inl ⟨j, by omega, by omega, h3⟩
      · exact .inl ⟨i, le_rfl, by omega, ht, hb⟩
      · exact .inr hn
    · rintro (⟨j, h1, h2, ht, hb⟩ | hn)
      · rcases eq_or_lt_of_le h1 with rfl | hlt
        · omega
        · exact .inl ⟨j, hlt, by omega, ht, hb⟩
      · exact .inr (.inr hn)

/-- The marks, as types and bases, from the entries of the map. -/
inductive Mark (ld : Loader) (db : Nat → Nat) (entries : List BMem) : Nat → Nat → Prop
  | preserved {m : BMem} (hmem : m ∈ entries) (hm : isAlloc m = true) :
      Mark ld db entries m.type m.base
  | first : Mark ld db entries bMemNotReported 0
  | high : Mark ld db entries bMemNotReported 0x100000000
  | descriptor {d : EfiDescriptor} (hmem : d ∈ ld.memoryMap) (hd : kept ld d) :
      Mark ld db entries d.type d.physicalAddress
  | descriptorEnd {d : EfiDescriptor} (hmem : d ∈ ld.memoryMap) (hd : kept ld d) :
      Mark ld db entries bMemNotReported d.next
  | allocation {a : Allocation} (hmem : a ∈ ld.allocations) :
      Mark ld db entries bMemNormal a.memory
  | allocationEnd {a : Allocation} (hmem : a ∈ ld.allocations) :
      Mark ld db entries bMemNotReported a.next
  | executable : Mark ld db entries bMemInitExecutable (ld.inX64 0)
  | database {i : Nat} (hi : i < 1000) : Mark ld db entries (databaseType db i) (ld.dbAll i)
  | syscalls : Mark ld db entries bMemUefiSyscalls ld.inX64Syscalls
  | afterSyscalls : Mark ld db entries bMemNormal (ld.inX64Syscalls + 4096)

theorem has_putMarks (h : putMarks ld db entries after = some n) :
    Has n t b ↔ Mark ld db entries t b := by
  rw [putMarks] at h
  simp only at h
  split at h
  · cases h
  rename_i n1 h1
  split at h
  · cases h
  rename_i n2 h2
  obtain rfl := some.inj h
  rw [has_markEfi, has_markEfi, has_putDatabases _ _ _ h2, has_markEfi, has_putAllocations,
    has_putDescriptors _ _ h1, has_mark, has_mark, has_keepAllocs]
  constructor
  · rintro (⟨rfl, rfl⟩ | ⟨rfl, rfl⟩ | ⟨i, -, hi, rfl, rfl⟩ | ⟨rfl, rfl⟩ |
      ⟨a, ha, ⟨rfl, rfl⟩ | ⟨rfl, rfl⟩⟩ | ⟨d, hd, hk, ⟨rfl, rfl⟩ | ⟨rfl, rfl⟩⟩ |
      ⟨rfl, rfl⟩ | ⟨rfl, rfl⟩ | ⟨m, hm, halloc, rfl, rfl⟩ | ⟨m, hm, -⟩)
    · exact .afterSyscalls
    · exact .syscalls
    · exact .database (by omega)
    · exact .executable
    · exact .allocation ha
    · exact .allocationEnd ha
    · exact .descriptor hd hk
    · exact .descriptorEnd hd hk
    · exact .high
    · exact .first
    · exact .preserved hm halloc
    · cases hm
  · intro hmark
    cases hmark with
    | preserved | first | high | descriptor | descriptorEnd => grind
    | allocation hmem | allocationEnd hmem | executable | database hi | syscalls | afterSyscalls =>
      grind

/-! ## Sorting and deleting -/

theorem qsortNativeMap_le {m1 m2 : BMem} :
    qsortNativeMap m1 m2 ≤ 0 ↔ Ranked BMem.base rank m1 m2 := by
  unfold qsortNativeMap Ranked
  split
  · rename_i hlt
    simp [hlt]
  split
  · omega
  split
  · omega
  · split
    · omega
    · omega

theorem qsortNativeMap_compares : Lib.Compares qsortNativeMap where
  total m1 m2 := by
    rw [qsortNativeMap_le, qsortNativeMap_le]
    unfold Ranked
    omega
  trans m1 m2 m3 h1 h2 := by
    rw [qsortNativeMap_le] at *
    unfold Ranked at *
    omega

theorem deleteNext_fst (drop : BMem → BMem → Bool) (m : BMem) (rest after : List BMem) :
    (deleteNext drop m rest after).1 = thin drop m rest := by
  induction rest generalizing m after with
  | nil => rfl
  | cons m' rest ih =>
    rw [deleteNext, thin]
    split
    · exact ih m _
    · rw [← ih m' after]

def flagsOf (ld : Loader) (finalize : Bool) (t b : Nat) : Nat :=
  if t = bMemNormal ∧ finalize = false ∧ b ≠ ld.allocation1.memory then 0x10001 else 1

theorem setFlags_flags (ld : Loader) (finalize : Bool) (m : BMem) :
    (setFlags ld finalize m).flags = flagsOf ld finalize m.type m.base := by
  unfold setFlags flagsOf
  split <;> rfl

theorem setFlags_type (ld : Loader) (finalize : Bool) (m : BMem) :
    (setFlags ld finalize m).type = m.type := by
  unfold setFlags
  split <;> rfl

theorem setFlags_base (ld : Loader) (finalize : Bool) (m : BMem) :
    (setFlags ld finalize m).base = m.base := by
  unfold setFlags
  split <;> rfl

/-- The mark that an address gets: none that begins below the address
begins later, or begins there and ranks higher. -/
structure Top (H : Nat → Nat → Prop) (x t b : Nat) : Prop where
  has : H t b
  le : b ≤ x
  last : ∀ t' b', H t' b' → b' ≤ x →
    b' < b ∨ b' = b ∧ (t' + 1) % 0x100000000 ≤ (t + 1) % 0x100000000

structure Exported (ld : Loader) (finalize : Bool) (H : Nat → Nat → Prop)
    (entries after : List BMem) : Prop where
  strict : entries.Pairwise fun m1 m2 => m1.base < m2.base
  valid : ∀ m ∈ entries, validEntry m = true
  top : ∀ x m, segAt BMem.base entries x = some m →
    ∃ t b, Top H x t b ∧ m.type = t ∧ m.flags = flagsOf ld finalize t b
  high : (∃ t, H t 0x100000000) → ∃ m ∈ entries, m.base = 0x100000000
  after : emptyAfter after = true

theorem flagsOf_valid (ld : Loader) (finalize : Bool) (t b : Nat) :
    (flagsOf ld finalize t b).testBit 0 = true := by
  unfold flagsOf
  split <;> rfl

def sortedMarks (ld : Loader) (finalize : Bool) (n : NativeMap) : List BMem :=
  qsort qsortNativeMap (n.written.map (setFlags ld finalize)).reverse

variable {finalize : Bool}

theorem mem_sortedMarks {m : BMem} : m ∈ sortedMarks ld finalize n ↔
    ∃ m0 ∈ n.written, setFlags ld finalize m0 = m := by
  unfold sortedMarks
  simp [mem_qsort]

theorem ranked_sortedMarks (ld : Loader) (finalize : Bool) (n : NativeMap) :
    (sortedMarks ld finalize n).Pairwise (Ranked BMem.base rank) :=
  (qsort_sorted qsortNativeMap_compares _).imp qsortNativeMap_le.mp

theorem finishMap_cases {m : BMem} {rest : List BMem} (hs : sortedMarks ld finalize n = m :: rest)
    (h : finishMap ld finalize n = some (entries, after)) :
    ∃ m' rest', thin sameBase m rest = m' :: rest' ∧ entries = thin mergeable m' rest' ∧
      increasing entries = true ∧ emptyAfter after = true := by
  obtain ⟨m', rest', htail⟩ : ∃ m' rest', thin sameBase m rest = m' :: rest' :=
    exists_cons_of_ne_nil (ne_nil_of_mem (mem_thin_head m rest))
  unfold finishMap at h
  simp only at h
  rw [show qsort qsortNativeMap (n.written.map (setFlags ld finalize)).reverse = m :: rest
    from hs] at h
  obtain ⟨⟨l1, after1⟩, h1⟩ : ∃ p, p = deleteEntries sameBase (m :: rest) n.after := ⟨_, rfl⟩
  have hl1 : l1 = m' :: rest' := by
    have hfst := deleteNext_fst sameBase m rest n.after
    rw [show deleteNext sameBase m rest n.after = (l1, after1) from h1.symm, htail] at hfst
    exact hfst
  obtain ⟨⟨l2, after2⟩, h2⟩ : ∃ p, p = deleteEntries mergeable l1 after1 := ⟨_, rfl⟩
  have hl2 : l2 = thin mergeable m' rest' := by
    rw [hl1] at h2
    have hfst := deleteNext_fst mergeable m' rest' after1
    rw [show deleteNext mergeable m' rest' after1 = (l2, after2) from h2.symm] at hfst
    exact hfst
  rw [← h1] at h
  simp only [← h2] at h
  split at h
  · rename_i hcheck
    rw [Bool.and_eq_true] at hcheck
    obtain ⟨rfl, rfl⟩ := Prod.mk.inj (some.inj h)
    exact ⟨m', rest', htail, hl2, hcheck.1, hcheck.2⟩
  · cases h

theorem finishMap_exported (hne : ∃ t b, Has n t b)
    (h : finishMap ld finalize n = some (entries, after)) :
    Exported ld finalize (Has n) entries after := by
  obtain ⟨m, rest, hs⟩ : ∃ m rest, sortedMarks ld finalize n = m :: rest := by
    obtain ⟨t, b, m, hm, -⟩ := hne
    exact exists_cons_of_ne_nil (ne_nil_of_mem (mem_sortedMarks.mpr ⟨m, hm, rfl⟩))
  have hranked := ranked_sortedMarks ld finalize n
  rw [hs] at hranked
  have hsorted : Sorted BMem.base (m :: rest) := hranked.imp Ranked.le
  obtain ⟨m', rest', htail, rfl, hinc, hafter⟩ := finishMap_cases hs h
  have hstrict := thin_strict m rest hsorted
  rw [show thin (fun a b => decide (BMem.base a = BMem.base b)) m rest = m' :: rest'
    from htail] at hstrict
  have hsub : ∀ a ∈ thin mergeable m' rest', a ∈ m :: rest := by
    intro a ha
    have hin : a ∈ thin sameBase m rest := htail ▸ (thin_sublist m' rest').subset ha
    exact (thin_sublist m rest).subset hin
  refine ⟨hstrict.sublist (thin_sublist m' rest'), fun a ha => ?_, fun x top htop => ?_, ?_, hafter⟩
  · obtain ⟨a0, -, rfl⟩ := mem_sortedMarks.mp (hs ▸ hsub a ha)
    unfold validEntry
    rw [setFlags_flags]
    exact flagsOf_valid ld finalize a0.type a0.base
  · -- merging keeps type and flags, and the last mark was kept before
    have hkeep : (segAt BMem.base (thin mergeable m' rest') x).map (fun a => (a.type, a.flags)) =
        (segAt BMem.base (m' :: rest') x).map fun a => (a.type, a.flags) :=
      thin_segAt (fun a b hab => ?_) x m' rest' (hstrict.imp le_of_lt)
    · rw [htop, ← htail] at hkeep
      obtain ⟨a, hseg, hsame⟩ := Option.map_eq_some_iff.mp hkeep.symm
      have hmem := (thin_sublist m rest).subset (segAt_mem hseg).1
      obtain ⟨a0, ha0, rfl⟩ := mem_sortedMarks.mp (hs ▸ hmem)
      rw [setFlags_type, setFlags_flags] at hsame
      have hlast := thin_top m rest hranked hseg
      have hle := (segAt_mem hseg).2
      rw [setFlags_base] at hle
      refine ⟨a0.type, a0.base, ⟨⟨a0, ha0, rfl, rfl⟩, hle, ?_⟩,
        (Prod.mk.inj hsame).1.symm, (Prod.mk.inj hsame).2.symm⟩
      rintro t' b' ⟨c, hc, rfl, rfl⟩ hle
      have hin : setFlags ld finalize c ∈ m :: rest := hs ▸ mem_sortedMarks.mpr ⟨c, hc, rfl⟩
      have hc := hlast _ hin (by rw [setFlags_base]; exact hle)
      unfold rank at hc
      rw [setFlags_base, setFlags_base, setFlags_type, setFlags_type] at hc
      exact hc
    · simp only [mergeable, Bool.and_eq_true, decide_eq_true_eq] at hab
      exact Prod.ext hab.2.1 hab.2.2.1
  · rintro ⟨t, c, hc, -, hbase⟩
    have hin : setFlags ld finalize c ∈ m :: rest := hs ▸ mem_sortedMarks.mpr ⟨c, hc, rfl⟩
    rw [← setFlags_base ld finalize c] at hbase
    -- the first pass keeps an entry with this base
    obtain ⟨a, ha, habase⟩ : ∃ a ∈ m' :: rest', a.base = 0x100000000 := by
      rw [← htail]
      cases hseg : segAt BMem.base (thin sameBase m rest) 0x100000000 with
      | none =>
        have hlow := segAt_eq_none.mp hseg m (mem_thin_head m rest)
        have hle : m.base ≤ (setFlags ld finalize c).base := by
          rcases mem_cons.mp hin with heq | hin
          · exact le_of_eq (congrArg BMem.base heq).symm
          · exact rel_of_pairwise_cons hsorted hin
        omega
      | some a =>
        obtain ⟨hmem, hle⟩ := segAt_mem hseg
        have hlast := thin_top m rest hranked hseg _ hin (le_of_eq hbase)
        exact ⟨a, hmem, by omega⟩
    -- the second pass keeps it, because all entries before it are below it
    refine ⟨a, mem_thin m' rest' hstrict ha fun d hd hlt => ?_, habase⟩
    unfold mergeable
    rw [habase] at hlt ⊢
    simp [Nat.le_of_lt_succ hlt]

end Dancy.Boot.Uefi
