import Dancy.Libc.AllocRuns

/-!
# Resizing a block (`realloc` in `alloc.c`)

The map does not record the size of a block, so `realloc` copies as many
bytes as are asked for, up to `alloc_high`, out of the old block and what
lies above it. `alloc_zero` is not set apart, as `free` does: the copy of
a zero-size block reads the memory at `0x10`.
-/

namespace Dancy.Libc

open Dancy.Lib Dancy.Heap List

/-- What `internal_map_pages` leaves in memory: the pages it maps are zero. -/
def zeroPages (bytes : Nat → UInt8) (addr size : Nat) (r : MmapReply) : Nat → UInt8 :=
  fun a =>
    if inRange addr size (a / 0x1000) && (r.ok || r.part (a / 0x1000)) then 0 else bytes a

/-- The bytes after `lowerArena`. -/
def lowerArenaBytes (s : AllocState) (bytes : Nat → UInt8) (addr : Nat) (r : MmapReply) :
    Nat → UInt8 :=
  if addr < s.low then
    zeroPages bytes (addr / 0x1000 * 0x1000) (s.low - addr / 0x1000 * 0x1000) r
  else bytes

/-- The bytes after `extendMap`, the array itself apart. -/
def extendMapBytes (arch : Arch) (s : AllocState) (bytes : Nat → UInt8) (r : MmapReply) :
    Nat → UInt8 :=
  let mapUsed := arch.word * s.allocMap.length
  if mapUsed ≥ s.allocMapSize then
    if mapUsed > s.allocMapSize then bytes
    else if isUsed (s.allocMap.getD 0 0) then bytes
    else if s.allocMap.getD 1 0 - s.allocMap.getD 0 0 < 0x2000 then bytes
    else zeroPages bytes (allocMapAddr + mapUsed) 0x1000 r
  else bytes

/-- The bytes after `internal_aligned_alloc`. -/
def internalAlignedAllocBytes (arch : Arch) (s : AllocState) (bytes : Nat → UInt8) (r : Replies)
    (alignment size : Nat) : Nat → UInt8 :=
  if alignment = 0 ∨ alignment > 0x400000 ∨ size = 0 then bytes
  else if alignment &&& (alignment - 1) ≠ 0 then bytes
  else
    match findBlock s.allocMap (effectiveAlignment alignment) size (s.allocMap.length - 1) with
    | none => bytes
    | some (_, addr) =>
      if addr = 0 ∨ s.allocMap.length > 0x08000000 then bytes
      else
        let bytes := lowerArenaBytes s bytes addr r.arena
        match lowerArena s addr r.arena with
        | (false, _) => bytes
        | (true, s) => extendMapBytes arch s bytes r.map

/-- `memcpy`: `rep movsb` copies upwards. -/
def memcpy (bytes : Nat → UInt8) (dst src : Nat) : Nat → Nat → UInt8
  | 0 => bytes
  | n + 1 => fun a =>
    if a = dst + n then memcpy bytes dst src n (src + n) else memcpy bytes dst src n a

/-- What a call of `realloc` returns and leaves, with the addresses
`memcpy` reads. -/
structure Realloced where
  ptr : Nat
  heap : AllocState
  bytes : Nat → UInt8
  reads : List Nat

def copySize (arch : Arch) (ptr size : Nat) : Nat :=
  if ptr ≠ 0 then min (arch.allocHigh - ptr) size else 0

def realloc (arch : Arch) (s : AllocState) (bytes : Nat → UInt8) (r : Replies)
    (ptr size : Nat) : Realloced :=
  if ptr ≠ 0 ∧ ptr ≥ arch.allocHigh then ⟨0, s, bytes, []⟩
  else if size ≠ 0 then
    let (newPtr, s') := internalAlignedAlloc arch s r 16 size
    let bytes := internalAlignedAllocBytes arch s bytes r 16 size
    if newPtr ≠ 0 then
      { ptr := newPtr
        heap := if ptr ≠ 0 then internalFree s' ptr else s'
        bytes := memcpy bytes newPtr ptr (copySize arch ptr size)
        reads := range' ptr (copySize arch ptr size) }
    else ⟨0, s', bytes, []⟩
  else ⟨allocZero, if ptr ≠ 0 then internalFree s ptr else s, bytes, []⟩

/-! ## Runs -/

/-- What the process knows after a call of `realloc`. -/
def AllocSys.realloced (s : AllocSys) (res : Realloced) (ptr size : Nat) : AllocSys :=
  let t := s.allocated (res.ptr, res.heap) 16 size
  if res.ptr = 0 ∨ ptr = 0 then t
  else { t with live := t.live.filter fun blk => blk.addr ≠ ptr }

/-- The calls, `realloc` among them. -/
inductive ReallocOp where
  | call (op : AllocOp)
  | realloc (r : Replies) (ptr size : Nat)

/-- No call of the run lets the array grow into the block it places, or
unmaps pages of the array; `realloc` frees the old block after the new one
has been entered. -/
def ReallocCallSafe (arch : Arch) (s : AllocSys) : ReallocOp → Prop
  | .call op => CallSafe arch s op
  | .realloc r ptr size =>
    (size ≠ 0 → MapGrowthSafe arch s.heap r 16 size) ∧
      (ptr ≠ 0 → (malloc arch s.heap r size).1 ≠ 0 → TrimSafe (malloc arch s.heap r size).2 ptr)

/-- A pointer the process holds, with the size of its block. -/
inductive AllocSys.Holds (s : AllocSys) : Nat → Nat → Prop where
  | null : s.Holds 0 0
  | zero : allocZero ∈ s.returned → s.Holds allocZero 0
  | block {blk : HeapBlock} : blk ∈ s.live → s.Holds blk.addr blk.size

/-- The used entries of the map, one for each block. -/
def AllocState.usedEntries (s : AllocState) : List Nat := s.allocMap.filter isUsed

/-- The entry of the block at `ptr`. -/
def entryOf (ptr size : Nat) : List Nat := if size = 0 then [] else [ptr + 1]

theorem Arch.allocHigh_pos (arch : Arch) : 0 < arch.allocHigh := by cases arch <;> decide

section invariant

variable {arch : Arch} {front : List Nat} {s : AllocSys}

variable {size a ptr old : Nat} {blk : HeapBlock} {r : Replies}

theorem zeroPages_above {bytes : Nat → UInt8} {addr : Nat} (r : MmapReply)
    (hend : (addr + size) % 0x1000 = 0) (ha : addr + size ≤ a) :
    zeroPages bytes addr size r a = bytes a := by
  have hout : inRange addr size (a / 0x1000) = false := by
    simp only [inRange, Bool.and_eq_false_iff, decide_eq_false_iff_not]
    omega
  rw [zeroPages, hout]
  rfl

section

variable (h : AllocInv arch front s)
include h

theorem AllocInv.lowerArenaBytes (bytes : Nat → UInt8) (addr : Nat) (r : MmapReply)
    (hblk : blk ∈ s.live) (ha : blk.addr ≤ a) :
    lowerArenaBytes s.heap bytes addr r a = bytes a := by
  have hlow := h.low_le blk hblk
  have hla := h.low_aligned
  unfold Libc.lowerArenaBytes
  split
  · exact zeroPages_above r (by omega) (by omega)
  · rfl

theorem AllocInv.extendMapBytes (bytes : Nat → UInt8) (r : MmapReply) (hblk : blk ∈ s.live)
    (ha : blk.addr ≤ a) : extendMapBytes arch s.heap bytes r a = bytes a := by
  obtain ⟨m, rest, hfront, h0, h1⟩ := h.first_two
  have hsa := h.size_aligned
  have hfirst := h.first
  have hentry := h.map.live_entry blk hblk
  have h16 := (h.map.live_ok blk hblk).2.1
  have hsorted := h.map.sorted
  unfold Libc.extendMapBytes
  simp only [h0]
  split
  · split
    · rfl
    split
    · rfl
    next hfree =>
      rw [Bool.not_eq_true] at hfree
      split
      · rfl
      rw [hfront, headD_cons, clearUsed_of_free hfree] at hfirst
      rw [hfront] at hentry hsorted
      -- the first block is free, so the live one starts above it
      have habove : blockEnd rest arch.allocHigh ≤ blk.addr + 1 := by
        rcases mem_cons.mp hentry with heq | hmem
        · rw [← heq, isUsed_succ h16] at hfree
          cases hfree
        · exact (sorted_head hsorted _ (mem_append_left _ hmem)).2
      exact zeroPages_above r (by unfold allocMapAddr; omega) (by omega)
  · rfl

theorem AllocInv.internalAlignedAllocBytes (bytes : Nat → UInt8) (r : Replies)
    (alignment size : Nat) (hblk : blk ∈ s.live) (ha : blk.addr ≤ a) :
    internalAlignedAllocBytes arch s.heap bytes r alignment size a = bytes a := by
  unfold Libc.internalAlignedAllocBytes
  split
  · rfl
  split
  · rfl
  rcases findBlock s.heap.allocMap (effectiveAlignment alignment) size
    (s.heap.allocMap.length - 1) with _ | ⟨i, addr⟩
  · rfl
  dsimp only
  split
  · rfl
  rcases hla : Libc.lowerArena s.heap addr r.arena with ⟨ok, heap⟩
  have hlow := h.lowerArenaBytes bytes addr r.arena hblk ha
  cases ok with
  | false => exact hlow
  | true => exact ((h.lowerArena hla).1.extendMapBytes _ r.map hblk ha).trans hlow

theorem AllocInv.internalAlignedAlloc_above {alignment : Nat}
    (hnew : (Libc.internalAlignedAlloc arch s.heap r alignment size).1 ≠ 0) :
    allocMapAddr ≤ (Libc.internalAlignedAlloc arch s.heap r alignment size).1 := by
  revert hnew
  unfold Libc.internalAlignedAlloc
  split
  · omega
  split
  · exact fun hne => absurd rfl hne
  split
  · omega
  next i addr hfind =>
    have habove : allocMapAddr ≤ addr := by
      obtain ⟨hi1, hi2, -, hlt, hcarve, -⟩ := findBlock_some hfind
      have hle := (carve_some hlt hcarve).1
      rw [h.map_eq, length_append, length_singleton] at hi2
      obtain ⟨l₁, l₂, hfront, -, -⟩ :=
        split_front arch.allocHigh (show i - 1 < front.length by omega)
      rw [h.map_eq] at hle
      have hfirst := h.first
      have hclear := clearUsed_le (front.headD 0)
      have hsorted := h.map.sorted
      cases l₁ with
      | nil =>
        rw [hfront] at hfirst hclear
        simp only [nil_append, headD_cons] at hfirst hclear
        omega
      | cons m l₁ =>
        rw [hfront] at hfirst hclear hsorted
        simp only [cons_append, headD_cons] at hfirst hclear
        have := (sorted_head hsorted _ (mem_append_left _
          (mem_append_right l₁ (mem_cons_self ..)))).1
        omega
    split
    · exact fun hne => absurd rfl hne
    rcases Libc.lowerArena s.heap addr r.arena with ⟨ok, heap1⟩
    cases ok with
    | false => simp
    | true =>
      rcases hex : Libc.extendMap arch heap1 r.map with ⟨ok, heap2⟩
      simp only [hex]
      cases ok with
      | false => exact fun hne => absurd rfl hne
      | true =>
        intro _
        simp only
        split <;> exact habove

end

/-- The end of `realloc`. -/
def AllocSys.released (s : AllocSys) (ptr : Nat) : AllocSys :=
  if ptr = 0 then s
  else
    { s with
      heap := internalFree s.heap ptr
      live := s.live.filter fun blk => blk.addr ≠ ptr }

section

variable (h : AllocInv arch front s)
include h

theorem AllocInv.released (h16 : ptr % 16 = 0) (htrim : ptr ≠ 0 → TrimSafe s.heap ptr) :
    ∃ front', AllocInv arch front' (s.released ptr) := by
  unfold AllocSys.released
  split
  · exact ⟨front, h⟩
  · next h0 => exact h.internalFree h16 (htrim h0)

theorem AllocInv.entries_nodup : (s.live.map fun blk => blk.addr + 1).Nodup := by
  have := List.Nodup.map Nat.succ_injective h.map.live_nodup
  rwa [map_map] at this

theorem AllocInv.usedEntries : s.heap.usedEntries.Perm (s.live.map fun blk => blk.addr + 1) := by
  have hsorted := h.map.sorted
  rw [AllocState.usedEntries, h.map_eq]
  refine (perm_ext_iff_of_nodup ((hsorted.imp ne_of_lt).filter _)
    h.entries_nodup).2 fun z => ?_
  rw [mem_filter, mem_map]
  constructor
  · rintro ⟨hz, hused⟩
    rcases mem_append.mp hz with hz | hz
    · exact h.map.used_live z hz hused
    · rw [mem_singleton] at hz
      have := h.map.top_entry
      rw [hz, isUsed_eq_true] at hused
      omega
  · rintro ⟨blk, hblk, rfl⟩
    exact ⟨mem_append_left _ (h.map.live_entry blk hblk),
      isUsed_succ (h.map.live_ok blk hblk).2.1⟩

theorem AllocInv.usedEntries_released (h16 : ptr % 16 = 0)
    (htrim : ptr ≠ 0 → TrimSafe s.heap ptr) :
    (s.released ptr).heap.usedEntries.Perm (s.heap.usedEntries.erase (ptr + 1)) := by
  obtain ⟨front', h'⟩ := h.released h16 htrim
  have hmem : ((s.live.filter fun blk => blk.addr ≠ ptr).map fun blk => blk.addr + 1) =
      (s.live.map fun blk => blk.addr + 1).erase (ptr + 1) := by
    rw [h.entries_nodup.erase_eq_filter, filter_map]
    congr 1
    refine filter_congr fun blk _ => ?_
    rw [Bool.eq_iff_iff]
    simp
  have hlive : (s.released ptr).live = s.live.filter fun blk => blk.addr ≠ ptr := by
    unfold AllocSys.released
    split
    · next h0 =>
        refine (filter_eq_self.mpr fun blk hblk => ?_).symm
        have := h.above hblk
        unfold allocMapAddr at this
        simp only [decide_eq_true_eq]
        omega
    · rfl
  have hleft := h'.usedEntries
  rw [hlive, hmem] at hleft
  exact hleft.trans (h.usedEntries.erase _).symm

end

/-- Before the old block is freed: the new block, or `alloc_zero`. -/
def AllocSys.renewed (arch : Arch) (s : AllocSys) (r : Replies) (size : Nat) : AllocSys :=
  s.allocated (malloc arch s.heap r size) 16 size

theorem AllocInv.renewed (h : AllocInv arch front s)
    (hsafe : size ≠ 0 → MapGrowthSafe arch s.heap r 16 size) :
    ∃ front', AllocInv arch front' (s.renewed arch r size) := by
  unfold AllocSys.renewed malloc
  split
  · exact ⟨front, h.zero _ _⟩
  · next h0 => exact h.internalAlignedAlloc (hsafe h0)

theorem AllocInv.renewed_eq (h : AllocInv arch front s) (hnew : (malloc arch s.heap r size).1 ≠ 0) :
    s.renewed arch r size =
      { heap := (malloc arch s.heap r size).2
        live := if size = 0 then s.live
          else ⟨(malloc arch s.heap r size).1, size, 16⟩ :: s.live
        returned := (malloc arch s.heap r size).1 :: s.returned } := by
  revert hnew
  unfold AllocSys.renewed malloc
  by_cases h0 : size = 0
  · simp only [if_pos h0]
    exact fun _ => rfl
  simp only [if_neg h0]
  intro hnew
  have habove := h.internalAlignedAlloc_above hnew
  have hzero : (Libc.internalAlignedAlloc arch s.heap r 16 size).1 ≠ allocZero := by
    unfold allocMapAddr at habove
    unfold allocZero
    omega
  rw [AllocSys.allocated, if_neg hnew, if_neg hzero]

theorem AllocInv.renewed_trim (h : AllocInv arch front s)
    (hsafe : ReallocCallSafe arch s (.realloc r ptr size))
    (hnew : (malloc arch s.heap r size).1 ≠ 0) (h0 : ptr ≠ 0) :
    TrimSafe (s.renewed arch r size).heap ptr := by
  rw [h.renewed_eq hnew]
  exact hsafe.2 h0 hnew

theorem realloc_eq (arch : Arch) (s : AllocState) (bytes : Nat → UInt8) (r : Replies) (size : Nat)
    (hhigh : ptr < arch.allocHigh) :
    realloc arch s bytes r ptr size =
      if (malloc arch s r size).1 ≠ 0 then
        { ptr := (malloc arch s r size).1
          heap := if ptr ≠ 0 then Libc.internalFree (malloc arch s r size).2 ptr
            else (malloc arch s r size).2
          bytes := memcpy (Libc.internalAlignedAllocBytes arch s bytes r 16 size)
            (malloc arch s r size).1 ptr (copySize arch ptr size)
          reads := range' ptr (copySize arch ptr size) }
      else
        ⟨0, (malloc arch s r size).2, Libc.internalAlignedAllocBytes arch s bytes r 16 size, []⟩ := by
  rw [realloc, if_neg (by omega), malloc]
  by_cases h0 : size = 0
  · subst h0
    have hcopy : copySize arch ptr 0 = 0 := by
      unfold copySize
      split
      · omega
      · rfl
    simp only [hcopy]
    rfl
  · simp only [ne_eq, h0, not_false_eq_true, ite_true, ite_false]

section

variable (h : AllocInv arch front s)
include h

/-- `realloc` is `malloc` and the freeing of the old block, or fails as
`malloc` does. -/
theorem AllocInv.realloced_eq (bytes : Nat → UInt8) (r : Replies) (size : Nat)
    (hhigh : ptr < arch.allocHigh) :
    s.realloced (Libc.realloc arch s.heap bytes r ptr size) ptr size =
      if (malloc arch s.heap r size).1 ≠ 0 then (s.renewed arch r size).released ptr
      else { s with heap := (malloc arch s.heap r size).2 } := by
  rw [realloc_eq arch s.heap bytes r size hhigh]
  by_cases hnew : (malloc arch s.heap r size).1 ≠ 0
  · rw [if_pos hnew, if_pos hnew, h.renewed_eq hnew, AllocSys.released, AllocSys.realloced]
    have hzero : (malloc arch s.heap r size).1 = allocZero ↔ size = 0 := by
      constructor
      · intro hz
        by_contra h0
        rw [malloc, if_neg h0] at hnew hz
        have habove := h.internalAlignedAlloc_above hnew
        rw [hz] at habove
        exact absurd habove (by decide)
      · intro h0
        rw [malloc, if_pos h0]
    generalize malloc arch s.heap r size = m at hnew hzero
    simp only [AllocSys.allocated, hzero]
    by_cases h0 : size = 0
    · have hm := hzero.mpr h0
      by_cases hp : ptr = 0 <;> simp [hp, h0, hm, show allocZero ≠ 0 by decide]
    · by_cases hp : ptr = 0 <;> simp [hp, h0, hnew]
  · rw [if_neg hnew, if_neg hnew]
    rfl

theorem AllocInv.realloced (bytes : Nat → UInt8) (h16 : ptr % 16 = 0)
    (hsafe : ReallocCallSafe arch s (.realloc r ptr size)) :
    ∃ front', AllocInv arch front'
      (s.realloced (Libc.realloc arch s.heap bytes r ptr size) ptr size) := by
  by_cases hhigh : ptr < arch.allocHigh
  · obtain ⟨front1, h1⟩ := h.renewed hsafe.1
    rw [h.realloced_eq bytes r size hhigh]
    split
    · next hnew => exact h1.released h16 (h.renewed_trim hsafe hnew)
    · next hnew =>
        rw [not_not] at hnew
        rw [AllocSys.renewed, AllocSys.allocated, if_pos hnew] at h1
        exact ⟨front1, h1⟩
  · rw [Libc.realloc, if_pos ⟨by have := Arch.allocHigh_pos arch; omega, by omega⟩]
    exact ⟨front, h⟩

end

/-! ## Whole calls -/

section

variable (h : AllocInv arch front s)
include h

theorem AllocSys.Holds.aligned (hptr : s.Holds ptr old) : ptr % 16 = 0 := by
  cases hptr with
  | null => rfl
  | zero => rfl
  | block hblk => exact (h.map.live_ok _ hblk).2.1

theorem AllocSys.Holds.fits (hptr : s.Holds ptr old) :
    ptr < arch.allocHigh ∧ ptr + old ≤ arch.allocHigh := by
  cases hptr with
  | null => exact ⟨arch.allocHigh_pos, arch.allocHigh_pos.le⟩
  | zero => cases arch <;> decide
  | block hblk =>
    have hin := (h.map.inside hblk).2
    have hpos := (h.map.live_ok _ hblk).1
    omega

theorem AllocSys.Holds.apart (hsafe : size ≠ 0 → MapGrowthSafe arch s.heap r 16 size)
    (h0 : size ≠ 0) (hnew : (malloc arch s.heap r size).1 ≠ 0) (hptr : s.Holds ptr old) :
    (malloc arch s.heap r size).1 ≠ ptr ∧
      (ptr + old ≤ (malloc arch s.heap r size).1 ∨
        (malloc arch s.heap r size).1 + size ≤ ptr) := by
  have habove : allocMapAddr ≤ (malloc arch s.heap r size).1 := by
    rw [malloc, if_neg h0] at hnew ⊢
    exact h.internalAlignedAlloc_above hnew
  unfold allocMapAddr at habove
  obtain ⟨front', h'⟩ := h.renewed hsafe
  rw [h.renewed_eq hnew, if_neg h0] at h'
  cases hptr with
  | null => omega
  | zero =>
    unfold allocZero
    omega
  | block hblk =>
    have := (pairwise_cons.mp h'.map.disjoint).1 _ hblk
    have hpos := (h.map.live_ok _ hblk).1
    simp only at this
    omega

theorem AllocSys.Holds.renewed (hsafe : ReallocCallSafe arch s (.realloc r ptr size))
    (hnew : (malloc arch s.heap r size).1 ≠ 0) (hptr : s.Holds ptr old) :
    ((s.renewed arch r size).released ptr).Holds (malloc arch s.heap r size).1 size ∧
      ((s.renewed arch r size).released ptr).heap.usedEntries.Perm
        (entryOf (malloc arch s.heap r size).1 size ++ s.heap.usedEntries.erase (ptr + 1)) := by
  obtain ⟨front', h'⟩ := h.renewed hsafe.1
  have hfreed := h'.usedEntries_released (hptr.aligned h) (h.renewed_trim hsafe hnew)
  have hused := h'.usedEntries
  have hbefore := h.usedEntries
  have heq := h.renewed_eq hnew
  by_cases h0 : size = 0
  · have hm : (malloc arch s.heap r size).1 = allocZero := by rw [malloc, if_pos h0]
    rw [if_pos h0] at heq
    have hlive : (s.renewed arch r size).live = s.live := by rw [heq]
    have hmem : allocZero ∈ ((s.renewed arch r size).released ptr).returned := by
      have : allocZero ∈ (s.renewed arch r size).returned := by
        rw [heq, hm]
        simp
      unfold AllocSys.released
      split <;> exact this
    refine ⟨?_, ?_⟩
    · rw [hm]
      suffices ∀ n, n = 0 → ((s.renewed arch r size).released ptr).Holds allocZero n from
        this size h0
      rintro n rfl
      exact .zero hmem
    · rw [entryOf, if_pos h0, nil_append]
      rw [hlive] at hused
      exact hfreed.trans ((hused.trans hbefore.symm).erase _)
  · rw [if_neg h0] at heq
    obtain ⟨hne, -⟩ := hptr.apart h hsafe.1 h0 hnew
    have hlive : (s.renewed arch r size).live =
        ⟨(malloc arch s.heap r size).1, size, 16⟩ :: s.live := by rw [heq]
    refine ⟨?_, ?_⟩
    · have hmem : (⟨(malloc arch s.heap r size).1, size, 16⟩ : HeapBlock) ∈
          ((s.renewed arch r size).released ptr).live := by
        unfold AllocSys.released
        split
        · rw [hlive]
          simp
        · rw [hlive]
          exact mem_filter.mpr ⟨mem_cons_self .., by simpa using hne⟩
      exact .block hmem
    · rw [entryOf, if_neg h0]
      rw [hlive, map_cons] at hused
      refine hfreed.trans (((hused.trans (hbefore.symm.cons _)).erase _).trans ?_)
      rw [erase_cons_tail (by simpa using hne)]
      rfl

end

theorem AllocSys.Holds.copySize (h : AllocInv arch front s) (size : Nat) (hptr : s.Holds ptr old)
    (hok : ptr = 0 ∨ size ≤ old ∨ ptr + old = arch.allocHigh) :
    copySize arch ptr size = min old size := by
  have hfits := (hptr.fits h).2
  unfold Libc.copySize
  split
  · omega
  next h0 =>
    have hold : old = 0 := by
      cases hptr with
      | null | zero => rfl
      | block hblk =>
        have := h.above hblk
        unfold allocMapAddr at this
        omega
    omega

theorem AllocSys.Holds.bytes (h : AllocInv arch front s) (bytes : Nat → UInt8) (r : Replies)
    {i : Nat} (hptr : s.Holds ptr old) (hi : i < old) :
    internalAlignedAllocBytes arch s.heap bytes r 16 size (ptr + i) = bytes (ptr + i) := by
  cases hptr with
  | null | zero => omega
  | block hblk => exact h.internalAlignedAllocBytes bytes r 16 size hblk (by omega)

section

variable (h : AllocInv arch front s) (bytes : Nat → UInt8) (hptr : s.Holds ptr old)
include h hptr

end

end invariant

def fresh : AllocSys := ⟨allocInit .a64 fun _ => false, [], []⟩

end Dancy.Libc
