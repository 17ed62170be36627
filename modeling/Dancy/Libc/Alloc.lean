import Dancy.Heap.Alloc

/-!
# The heap of a process (`alloc.c`)

The map is searched, split and merged as the map of the kernel heap is.
Here the arena below `alloc_high` is mapped page by page from the top:
`alloc_state[1]`, which is `low`, is where the mapped part begins. An
allocation maps what it needs below it, and `free` unmaps pages of the
first block. A call that touches memory that is not mapped ends the
process, so its run ends there at the latest.
-/

namespace Dancy.Libc

open Dancy.Heap

inductive Arch where
  | a32
  | a64

/-- `sizeof(size_t)`. -/
def Arch.word : Arch → Nat
  | .a32 => 4
  | .a64 => 8

def Arch.allocHigh : Arch → Nat
  | .a32 => 0xFFFFF000
  | .a64 => 0x7FFFFFFFF000

/-- The address of `alloc_map`. -/
def allocMapAddr : Nat := 0x80001000

def allocZero : Nat := 0x10

/-- The static variables, and the pages of the process. -/
structure AllocState where
  allocMap : List Nat
  (allocMapSize low : Nat)
  mapped : Nat → Bool

/-- What `mmap` answers: it maps all pages, or it fails after some. -/
structure MmapReply where
  ok : Bool
  part : Nat → Bool

/-- The page belongs to `size` bytes at `addr`. -/
def inRange (addr size page : Nat) : Bool :=
  decide (addr ≤ page * 0x1000) && decide (page * 0x1000 < addr + size)

/-- `internal_map_pages`; the result is whether it succeeds. -/
def internalMapPages (s : AllocState) (addr size : Nat) (r : MmapReply) : Bool × AllocState :=
  (r.ok, { s with mapped := fun p => s.mapped p || (inRange addr size p && (r.ok || r.part p)) })

def internalUnmapPages (s : AllocState) (addr size : Nat) : AllocState :=
  { s with mapped := fun p => s.mapped p && !inRange addr size p }

/-- The state `internal_alloc_init` leaves when it succeeds. -/
def allocInit (arch : Arch) (before : Nat → Bool) : AllocState where
  allocMap := [allocMapAddr + 0x1000, arch.allocHigh]
  allocMapSize := 0x1000
  low := arch.allocHigh - 0x1000
  mapped := fun p => before p || inRange allocMapAddr 0x1000 p ||
    inRange (arch.allocHigh - 0x1000) 0x1000 p

/-- `if (addr < alloc_state[1])`: the arena is mapped down to `addr`. -/
def lowerArena (s : AllocState) (addr : Nat) (r : MmapReply) : Bool × AllocState :=
  if addr < s.low then
    let alignedAddr := addr / 0x1000 * 0x1000
    match internalMapPages s alignedAddr (s.low - alignedAddr) r with
    | (false, s) => (false, s)
    | (true, s) => (true, { s with low := alignedAddr })
  else (true, s)

/-- `if (map_used >= alloc_map_size)`: the array takes one more page. -/
def extendMap (arch : Arch) (s : AllocState) (r : MmapReply) : Bool × AllocState :=
  let mapUsed := arch.word * s.allocMap.length
  if mapUsed ≥ s.allocMapSize then
    if mapUsed > s.allocMapSize then (false, s)
    else if isUsed (s.allocMap.getD 0 0) then (false, s)
    else if s.allocMap.getD 1 0 - s.allocMap.getD 0 0 < 0x2000 then (false, s)
    else
      match internalMapPages s (allocMapAddr + mapUsed) 0x1000 r with
      | (false, s) => (false, s)
      | (true, s) =>
        let allocMapSize := s.allocMapSize + 0x1000
        (true, { s with
          allocMapSize := allocMapSize
          allocMap := s.allocMap.set 0 (allocMapAddr + allocMapSize) })
  else (true, s)

/-- The replies to the two calls of `mmap` in an allocation. -/
structure Replies where
  (arena map : MmapReply)

/-- `internal_aligned_alloc`; `0` is the NULL return. The search is the one
of `heap_aligned_alloc`. -/
def internalAlignedAlloc (arch : Arch) (s : AllocState) (r : Replies) (alignment size : Nat) :
    Nat × AllocState :=
  if alignment = 0 ∨ alignment > 0x400000 ∨ size = 0 then (0, s)
  else if alignment &&& (alignment - 1) ≠ 0 then (0, s)
  else
    match findBlock s.allocMap (effectiveAlignment alignment) size (s.allocMap.length - 1) with
    | none => (0, s)
    | some (i, addr) =>
      if addr = 0 ∨ s.allocMap.length > 0x08000000 then (0, s)
      else
        -- `addr != b`, with the entry as the search saw it
        let mapInsert := addr ≠ s.allocMap.getD (i - 1) 0
        match lowerArena s addr r.arena with
        | (false, s) => (0, s)
        | (true, s) =>
          match extendMap arch s r.map with
          | (false, s) => (0, s)
          | (true, s) =>
            if mapInsert then
              (addr, { s with allocMap := s.allocMap.insertIdx i (setUsed addr) })
            else (addr, { s with allocMap := s.allocMap.set (i - 1) (setUsed addr) })

/-- The end of `internal_free`: pages of a large first block are unmapped,
but not the last two. -/
def trimArena (s : AllocState) : AllocState :=
  if isUsed (s.allocMap.getD 0 0) = false ∧ s.allocMap.getD 1 0 > s.low then
    let d := (s.allocMap.getD 1 0 - s.low) / 0x1000 * 0x1000
    if d > 0x4000 then
      { internalUnmapPages s s.low (d - 0x2000) with low := s.low + (d - 0x2000) }
    else s
  else s

def internalFree (s : AllocState) (ptr : Nat) : AllocState :=
  trimArena { s with allocMap := mergeFree (clearEntry (setUsed ptr) s.allocMap) }

def alignedAlloc (arch : Arch) (s : AllocState) (r : Replies) (alignment size : Nat) :
    Nat × AllocState :=
  if size = 0 then (0, s) else internalAlignedAlloc arch s r alignment size

def malloc (arch : Arch) (s : AllocState) (r : Replies) (size : Nat) : Nat × AllocState :=
  if size = 0 then (allocZero, s) else internalAlignedAlloc arch s r 16 size

/-- `nmemb * size` as `size_t`. -/
def totalSize (arch : Arch) (nmemb size : Nat) : Nat := nmemb * size % 256 ^ arch.word

/-- `calloc`, less the filling with zeros. -/
def calloc (arch : Arch) (s : AllocState) (r : Replies) (nmemb size : Nat) : Nat × AllocState :=
  let total := totalSize arch nmemb size
  if nmemb = 0 ∨ size = 0 then (allocZero, s)
  else if total = 0 ∨ total / nmemb ≠ size then (0, s)
  else internalAlignedAlloc arch s r 16 total

def free (s : AllocState) (ptr : Nat) : AllocState :=
  if ptr = 0 ∨ ptr = allocZero then s else internalFree s ptr

end Dancy.Libc
