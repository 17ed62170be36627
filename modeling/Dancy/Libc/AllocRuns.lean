import Dancy.Libc.Alloc

/-!
# The heap of a process over whole runs

As in the kernel, the array grows after the block has been chosen, so a
block chosen in the first page of the first block is overrun by it:
`MapGrowthSafe` is the condition under which it is not. The array may also
grow into pages of the arena that are mapped; `free` then unmaps pages of
the array when it trims the arena from `low` on, and `TrimSafe` is the
condition under which it does not. Under both live blocks are apart,
aligned, apart from the array, and mapped, and so is the array.
-/

namespace Dancy.Libc

open Dancy.Lib Dancy.Heap List

/-! ## Runs -/

structure AllocSys where
  heap : AllocState
  live : List HeapBlock
  returned : List Nat

/-- A call, with the replies of `mmap` it gets. -/
inductive AllocOp where
  | malloc (r : Replies) (size : Nat)
  | calloc (r : Replies) (nmemb size : Nat)
  | alignedAlloc (r : Replies) (alignment size : Nat)
  | free (ptr : Nat)

/-- The alignment and the size a call asks of `internal_aligned_alloc`. -/
def AllocOp.request (arch : Arch) : AllocOp → Option (Replies × Nat × Nat)
  | .malloc r size => if size = 0 then none else some (r, 16, size)
  | .calloc r nmemb size =>
    let total := totalSize arch nmemb size
    if nmemb = 0 ∨ size = 0 then none
    else if total = 0 ∨ total / nmemb ≠ size then none
    else some (r, 16, total)
  | .alignedAlloc r alignment size => if size = 0 then none else some (r, alignment, size)
  | .free _ => none

/-- What an allocation returned; a pointer that is neither `NULL` nor
`alloc_zero` is a block of its own. -/
def AllocSys.allocated (s : AllocSys) (r : Nat × AllocState) (alignment size : Nat) : AllocSys :=
  if r.1 = 0 then { s with heap := r.2 }
  else if r.1 = allocZero then { s with heap := r.2, returned := allocZero :: s.returned }
  else
    { heap := r.2
      live := ⟨r.1, size, alignment⟩ :: s.live
      returned := r.1 :: s.returned }

def AllocSys.freed (s : AllocSys) (ptr : Nat) : AllocSys :=
  { s with
    heap := free s.heap ptr
    live := s.live.filter fun blk => blk.addr ≠ ptr }

inductive AllocStep (arch : Arch) : AllocSys → AllocOp → AllocSys → Prop where
  | malloc (s : AllocSys) (r : Replies) (size : Nat) :
      AllocStep arch s (.malloc r size) (s.allocated (malloc arch s.heap r size) 16 size)
  | calloc (s : AllocSys) (r : Replies) (nmemb size : Nat) :
      AllocStep arch s (.calloc r nmemb size)
        (s.allocated (calloc arch s.heap r nmemb size) 16 (nmemb * size))
  | alignedAlloc (s : AllocSys) (r : Replies) (alignment size : Nat) :
      AllocStep arch s (.alignedAlloc r alignment size)
        (s.allocated (alignedAlloc arch s.heap r alignment size) alignment size)
  | free (s : AllocSys) (ptr : Nat) : ptr = 0 ∨ ptr ∈ s.returned →
      AllocStep arch s (.free ptr) (s.freed ptr)

/-- An allocation that finds the array full does not carve its block out of
the page the array is about to take: the array is not full, or `mmap` does
not give the page, or the first block has no page to give, or a block above
the first one serves the request, or the first one does not, or it leaves a
page in front. -/
def MapGrowthSafe (arch : Arch) (s : AllocState) (r : Replies) (alignment size : Nat) : Prop :=
  arch.word * s.allocMap.length < s.allocMapSize ∨
  r.map.ok = false ∨
  s.allocMap.getD 1 0 - s.allocMap.getD 0 0 < 0x2000 ∨
  (∃ k, 0 < k ∧ k + 1 < s.allocMap.length ∧ Serves s.allocMap alignment size k) ∨
  ¬Serves s.allocMap alignment size 0 ∨
  s.allocMap.getD 0 0 + 0x1000 + size + (clearUsed (s.allocMap.getD 1 0) - size) % alignment
    ≤ clearUsed (s.allocMap.getD 1 0)

/-- The pointer a call hands to `internal_free`. -/
def AllocOp.frees : AllocOp → Option Nat
  | .free ptr => if ptr = 0 ∨ ptr = allocZero then none else some ptr
  | _ => none

/-- Freeing a pointer does not unmap pages of the array: the array ends at
or below the mapped part of the arena, or nothing is unmapped, the first
block being used or having less than five mapped pages once the free blocks
are merged. -/
def TrimSafe (s : AllocState) (ptr : Nat) : Prop :=
  let allocMap := mergeFree (clearEntry (setUsed ptr) s.allocMap)
  allocMapAddr + s.allocMapSize ≤ s.low ∨
    isUsed (allocMap.getD 0 0) = true ∨ allocMap.getD 1 0 < s.low + 0x5000

/-- Neither slip of the array is met by this call. -/
structure CallSafe (arch : Arch) (s : AllocSys) (op : AllocOp) : Prop where
  growth : ∀ r alignment size, op.request arch = some (r, alignment, size) →
    MapGrowthSafe arch s.heap r (effectiveAlignment alignment) size
  trim : ∀ ptr, op.frees = some ptr → TrimSafe s.heap ptr

/-- The live blocks are sound and mapped, and so is the array, which none of them meets. -/
structure AllocGood (arch : Arch) (s : AllocSys) : Prop where
  requested : ∀ blk ∈ s.live, 0 < blk.size ∧ 16 ∣ blk.addr ∧ blk.alignment ∣ blk.addr
  inside : ∀ blk ∈ s.live, allocMapAddr + 0x1000 ≤ blk.addr ∧ blk.addr + blk.size ≤ arch.allocHigh
  disjoint : s.live.Pairwise fun a b => a.addr + a.size ≤ b.addr ∨ b.addr + b.size ≤ a.addr
  map_disjoint : ∀ blk ∈ s.live, allocMapAddr + s.heap.allocMapSize ≤ blk.addr
  map_fits : arch.word * s.heap.allocMap.length ≤ s.heap.allocMapSize
  map_mapped : ∀ a, allocMapAddr ≤ a → a < allocMapAddr + s.heap.allocMapSize →
    s.heap.mapped (a / 0x1000) = true
  mapped : ∀ blk ∈ s.live, ∀ a, blk.addr ≤ a → a < blk.addr + blk.size →
    s.heap.mapped (a / 0x1000) = true

/-- The whole invariant, `front` being the map without its last entry. -/
structure AllocInv (arch : Arch) (front : List Nat) (s : AllocSys) : Prop where
  map_eq : s.heap.allocMap = front ++ [arch.allocHigh]
  ne : front ≠ []
  map : MapInv arch.allocHigh front s.live
  size_aligned : s.heap.allocMapSize % 0x1000 = 0
  size_pos : 0x1000 ≤ s.heap.allocMapSize
  fits : arch.word * (front.length + 1) ≤ s.heap.allocMapSize
  first : clearUsed (front.headD 0) = allocMapAddr + s.heap.allocMapSize
  map_pages : ∀ p, allocMapAddr ≤ p * 0x1000 →
    p * 0x1000 < allocMapAddr + s.heap.allocMapSize → s.heap.mapped p = true
  low_aligned : s.heap.low % 0x1000 = 0
  low_le : ∀ blk ∈ s.live, s.heap.low ≤ blk.addr
  pages : ∀ p, s.heap.low ≤ p * 0x1000 → p * 0x1000 < arch.allocHigh → s.heap.mapped p = true
  returned_even : ∀ p ∈ s.returned, p % 16 = 0

section invariant

variable {arch : Arch} {front : List Nat} {s : AllocSys}

theorem AllocInv.good (h : AllocInv arch front s) : AllocGood arch s := by
  have hpos := h.size_pos
  have hin : ∀ blk ∈ s.live, allocMapAddr + s.heap.allocMapSize ≤ blk.addr ∧
      blk.addr + blk.size ≤ arch.allocHigh := fun blk hblk => h.first ▸ h.map.inside hblk
  refine ⟨fun blk hblk => ?_, fun blk hblk => ?_, h.map.disjoint, fun blk hblk => (hin blk hblk).1,
    ?_, fun a h1 h2 => ?_, fun blk hblk a h1 h2 => ?_⟩
  · obtain ⟨h1, h2, h3⟩ := h.map.live_ok blk hblk
    omega
  · have := hin blk hblk
    exact ⟨by omega, this.2⟩
  · rw [h.map_eq, length_append]
    exact h.fits
  · exact h.map_pages _ (by unfold allocMapAddr at h1 ⊢; omega) (by omega)
  · have h3 := h.low_le blk hblk
    have h4 := h.low_aligned
    have h5 := (hin blk hblk).2
    exact h.pages _ (by omega) (by omega)

theorem Arch.word_dvd (arch : Arch) : arch.word * (0x1000 / arch.word) = 0x1000 ∧
    4 ≤ arch.word ∧ arch.word ≤ 8 := by
  cases arch <;> decide

theorem Arch.allocHigh_aligned (arch : Arch) : arch.allocHigh % 0x1000 = 0 := by
  cases arch <;> decide

section

variable (h : AllocInv arch front s)
include h

theorem AllocInv.pages_or {p : Nat} (more : Bool) (h1 : s.heap.low ≤ p * 0x1000)
    (h2 : p * 0x1000 < arch.allocHigh) : (s.heap.mapped p || more) = true := by
  rw [h.pages p h1 h2]
  rfl

theorem AllocInv.map_pages_or {p : Nat} (more : Bool) (h1 : allocMapAddr ≤ p * 0x1000)
    (h2 : p * 0x1000 < allocMapAddr + s.heap.allocMapSize) :
    (s.heap.mapped p || more) = true := by
  rw [h.map_pages p h1 h2]
  rfl

/-- Lowering the arena leaves the map alone; when it succeeds the arena is
mapped down to the page of `addr`. -/
theorem AllocInv.lowerArena {addr : Nat} {r : MmapReply} {ok : Bool} {heap : AllocState}
    (he : lowerArena s.heap addr r = (ok, heap)) :
    AllocInv arch front { s with heap := heap } ∧ heap.allocMap = s.heap.allocMap ∧
      heap.allocMapSize = s.heap.allocMapSize ∧ (ok = true → heap.low ≤ addr) := by
  unfold Libc.lowerArena at he
  split at he
  · next hlt =>
      cases hok : r.ok with
      | false =>
        simp only [internalMapPages, hok] at he
        cases he
        exact ⟨{ h with
          pages := fun p h1 h2 => h.pages_or _ h1 h2
          map_pages := fun p h1 h2 => h.map_pages_or _ h1 h2 }, rfl, rfl, fun h => by cases h⟩
      | true =>
        simp only [internalMapPages, hok] at he
        cases he
        refine ⟨{ h with
          map_pages := fun p h1 h2 => h.map_pages_or _ h1 h2
          low_aligned := by simp only; omega
          low_le := fun blk hblk => ?_
          pages := fun p h1 h2 => ?_ }, rfl, rfl, fun _ => Nat.div_mul_le_self _ _⟩
        · have := h.low_le blk hblk
          simp only
          omega
        simp only at h1 ⊢
        rcases lt_or_ge (p * 0x1000) s.heap.low with hp | hp
        · have : inRange (addr / 0x1000 * 0x1000)
              (s.heap.low - addr / 0x1000 * 0x1000) p = true := by
            simp only [inRange, Bool.and_eq_true, decide_eq_true_eq]
            omega
          simp [this]
        · exact h.pages_or _ hp h2
  · cases he
    exact ⟨h, rfl, rfl, fun _ => by omega⟩

theorem AllocInv.first_two :
    ∃ m rest, front = m :: rest ∧ s.heap.allocMap.getD 0 0 = m ∧
      s.heap.allocMap.getD 1 0 = blockEnd rest arch.allocHigh := by
  cases hf : front with
  | nil => exact absurd hf h.ne
  | cons m rest =>
    refine ⟨m, rest, rfl, by simp [h.map_eq, hf], ?_⟩
    rw [h.map_eq, hf, blockEnd]
    cases rest <;> rfl

/-- Growing the array: nothing had to be done, or the first block is free,
larger than a page and has given one to the array. -/
theorem AllocInv.extendMap {r : MmapReply} {ok : Bool} {heap : AllocState}
    (he : extendMap arch s.heap r = (ok, heap)) :
    (ok = false ∧ AllocInv arch front { s with heap := heap }) ∨
    (ok = true ∧ heap.low = s.heap.low ∧ ∃ front', AllocInv arch front' { s with heap := heap } ∧
      arch.word * (front'.length + 2) ≤ heap.allocMapSize ∧
      (front' = front ∨ ∃ m rest, front = m :: rest ∧ front' = (m + 0x1000) :: rest ∧
        m + 0x2000 ≤ blockEnd rest arch.allocHigh ∧ r.ok = true ∧
        s.heap.allocMapSize ≤ arch.word * s.heap.allocMap.length)) := by
  obtain ⟨m, rest, hfront, h0, h1⟩ := h.first_two
  have hfits := h.fits
  have hsa := h.size_aligned
  have hlen : s.heap.allocMap.length = front.length + 1 := by simp [h.map_eq]
  obtain ⟨hword, hw4, hw8⟩ := arch.word_dvd
  unfold Libc.extendMap at he
  simp only [h0] at he
  split at he
  · next hfull =>
      split at he
      · cases he
        exact .inl ⟨rfl, h⟩
      split at he
      · cases he
        exact .inl ⟨rfl, h⟩
      next hfree =>
        rw [Bool.not_eq_true] at hfree
        split at he
        · cases he
          exact .inl ⟨rfl, h⟩
        next hroom =>
          cases hok : r.ok with
          | false =>
            simp only [internalMapPages, hok] at he
            cases he
            exact .inl ⟨rfl, { h with
              pages := fun p h1 h2 => h.pages_or _ h1 h2
              map_pages := fun p h1 h2 => h.map_pages_or _ h1 h2 }⟩
          | true =>
            simp only [internalMapPages, hok] at he
            cases he
            have hfirst := h.first
            have hmap := h.map
            rw [hfront, headD_cons, clearUsed_of_free hfree] at hfirst
            rw [hfront] at hmap
            have hfree' : isUsed (m + 0x1000) = false := by
              rw [isUsed_eq_false] at hfree ⊢
              omega
            have hw : arch.word * (front.length + 1 + 1) ≤ s.heap.allocMapSize + 0x1000 := by
              rw [Nat.mul_succ]
              omega
            have hsame : ((m + 0x1000) :: rest).length = front.length := by
              rw [hfront]
              rfl
            refine .inr ⟨rfl, rfl, (m + 0x1000) :: rest, ⟨?_, by simp,
              hmap.raiseFirst hfree (by omega), by simp only; omega, by simp only; omega,
              ?_, ?_, fun p h1 h2 => ?_, h.low_aligned, h.low_le,
              fun p h1 h2 => h.pages_or _ h1 h2, h.returned_even⟩, ?_, .inr ⟨m, rest, hfront, rfl, by omega, rfl, hfull⟩⟩
            · simp only [h.map_eq, hfront, cons_append, set_cons_zero]
              rw [show allocMapAddr + (s.heap.allocMapSize + 0x1000) = m + 0x1000 by omega]
            · simp only [hsame]
              omega
            · simp only [headD_cons, clearUsed_of_free hfree']
              omega
            · simp only at h2 ⊢
              rcases lt_or_ge (p * 0x1000) (allocMapAddr + s.heap.allocMapSize) with hp | hp
              · exact h.map_pages_or _ h1 hp
              · -- the page the array has just taken
                have hnew : inRange (allocMapAddr + arch.word * s.heap.allocMap.length)
                    0x1000 p = true := by
                  simp only [inRange, Bool.and_eq_true, decide_eq_true_eq]
                  omega
                rw [hnew]
                simp
            · simp only [hsame]
              exact hw
  · next hfull =>
      cases he
      refine .inr ⟨rfl, rfl, front, h, ?_, .inl rfl⟩
      -- a multiple of the word below the size leaves room for one more
      cases arch <;> simp only [Arch.word] at hfull ⊢ <;> omega

end

variable {r : Replies}

section

variable (h : AllocInv arch front s)
include h

theorem AllocInv.page_left {ea size addr : Nat} (hsafe : MapGrowthSafe arch s.heap r ea size)
    (hfind : findBlock s.heap.allocMap ea size front.length = some (1, addr)) {m : Nat}
    {rest : List Nat} (hfront : front = m :: rest)
    (hroom : m + 0x2000 ≤ blockEnd rest arch.allocHigh) (hok : r.map.ok = true)
    (hfull : s.heap.allocMapSize ≤ arch.word * s.heap.allocMap.length) : m + 0x1000 ≤ addr := by
  obtain ⟨m', rest', hmr, h0, h1⟩ := h.first_two
  rw [hfront, cons.injEq] at hmr
  obtain ⟨rfl, rfl⟩ := hmr
  rcases hsafe with hs | hs | hs | hs
  · omega
  · rw [hok] at hs
    cases hs
  · omega
  · have hlen : front.length = s.heap.allocMap.length - 1 := by simp [h.map_eq]
    exact h0 ▸ Heap.page_left (hlen ▸ hfind) hs

theorem AllocInv.placed {alignment size i addr : Nat}
    (hsafe : MapGrowthSafe arch s.heap r (effectiveAlignment alignment) size)
    (h16 : 16 ∣ effectiveAlignment alignment) (hdvd : alignment ∣ effectiveAlignment alignment)
    (hsize : 0 < size)
    (hfind : findBlock s.heap.allocMap (effectiveAlignment alignment) size front.length = some (i, addr))
    (h0 : addr ≠ 0) {heap : AllocState} {front' : List Nat}
    (hinv : AllocInv arch front' { s with heap := heap }) (hlow : heap.low ≤ addr)
    (hroom : arch.word * (front'.length + 2) ≤ heap.allocMapSize)
    (hgrow : front' = front ∨ ∃ m rest, front = m :: rest ∧ front' = (m + 0x1000) :: rest ∧ m + 0x2000 ≤ blockEnd rest arch.allocHigh ∧ r.map.ok = true ∧ s.heap.allocMapSize ≤ arch.word * s.heap.allocMap.length) :
    ∃ front'', AllocInv arch front''
      (s.allocated (if addr ≠ s.heap.allocMap.getD (i - 1) 0 then
          (addr, { heap with allocMap := heap.allocMap.insertIdx i (setUsed addr) })
        else (addr, { heap with allocMap := heap.allocMap.set (i - 1) (setUsed addr) }))
        alignment size) := by
  have hgrow' : front' = front ∨ ∃ m rest, front = m :: rest ∧ front' = (m + 0x1000) :: rest ∧
      (i = 1 → m + 0x1000 ≤ addr) := by
    rcases hgrow with hf | ⟨m, rest, hf, hf', hr, hok, hfull⟩
    · exact .inl hf
    · refine .inr ⟨m, rest, hf, hf', ?_⟩
      rintro rfl
      exact h.page_left hsafe hfind hf hr hok hfull
  obtain ⟨new, hnew, hmap, hlen, hne, hhead⟩ :=
    mapInv_place h.map hinv.map (by rw [← h.map_eq]; exact hfind) h16 hdvd hsize hgrow'
  have hsame : front'.length = front.length := by
    rcases hgrow' with rfl | ⟨m, rest, rfl, rfl, -⟩ <;> rfl
  have hstate : (if addr ≠ s.heap.allocMap.getD (i - 1) 0 then
        (addr, { heap with allocMap := heap.allocMap.insertIdx i (setUsed addr) })
      else (addr, { heap with allocMap := heap.allocMap.set (i - 1) (setUsed addr) })) =
      (addr, { heap with allocMap := new ++ [arch.allocHigh] }) := by
    rw [← hnew, ← h.map_eq, ← hinv.map_eq]
    unfold enterBlock
    split <;> rfl
  -- the block lies above the array, so it is not `alloc_zero`
  have hfirst := hinv.first
  have habove := (hmap.inside (mem_cons_self ..)).1
  have hzero : addr ≠ allocZero := by
    rw [hhead, hfirst] at habove
    unfold allocMapAddr at habove
    unfold allocZero
    simp only at habove
    omega
  rw [hstate, AllocSys.allocated, if_neg h0, if_neg hzero]
  refine ⟨new, rfl, hne, hmap, hinv.size_aligned, hinv.size_pos, ?_, ?_, hinv.map_pages,
    hinv.low_aligned, ?_, hinv.pages, ?_⟩
  · refine le_trans (Nat.mul_le_mul_left _ ?_) hroom
    omega
  · rw [hhead, hfirst]
  · intro blk hblk
    rcases mem_cons.mp hblk with rfl | hblk
    · exact hlow
    · exact hinv.low_le blk hblk
  · intro p hp
    rcases mem_cons.mp hp with rfl | hp
    · exact (hmap.live_ok _ (mem_cons_self ..)).2.1
    · exact h.returned_even p hp

theorem AllocInv.internalAlignedAlloc {alignment size : Nat}
    (hsafe : MapGrowthSafe arch s.heap r (effectiveAlignment alignment) size) :
    ∃ front', AllocInv arch front'
      (s.allocated (internalAlignedAlloc arch s.heap r alignment size) alignment size) := by
  have hnull : ∀ {heap : AllocState}, AllocInv arch front { s with heap := heap } →
      ∃ front', AllocInv arch front' (s.allocated (0, heap) alignment size) := fun hh => ⟨front, hh⟩
  unfold Libc.internalAlignedAlloc
  split
  · exact hnull h
  next h1 =>
    split
    · exact hnull h
    next h2 =>
      obtain ⟨h16, hdvd⟩ := effectiveAlignment_spec (by omega) (not_not.mp h2)
      have hlen : s.heap.allocMap.length - 1 = front.length := by simp [h.map_eq]
      split
      · exact hnull h
      next i addr hfind =>
        split
        · exact hnull h
        next h0 =>
          rcases hla : Libc.lowerArena s.heap addr r.arena with ⟨ok, heap1⟩
          obtain ⟨hinv1, hmap1, hsize1, hlow1⟩ := h.lowerArena hla
          cases ok with
          | false => exact hnull hinv1
          | true =>
            have hlow1 := hlow1 rfl
            rcases hex : Libc.extendMap arch heap1 r.map with ⟨ok, heap2⟩
            simp only [hex]
            rcases hinv1.extendMap hex with ⟨rfl, hinv⟩ |
              ⟨rfl, hlow2, front', hinv2, hroom, hgrow⟩
            · exact hnull hinv
            · exact h.placed hsafe h16 hdvd (by omega) (hlen ▸ hfind)
                (by omega) hinv2 (by rw [hlow2]; exact hlow1) hroom
                (by simpa only [hmap1, hsize1] using hgrow)

end

/-- What is unmapped: nothing, or whole pages below the end of a free first
block of five mapped pages at least, with two pages left. -/
theorem trimArena_cases (s : AllocState) : trimArena s = s ∨
    ∃ d, d % 0x1000 = 0 ∧ isUsed (s.allocMap.getD 0 0) = false ∧
      s.low + 0x5000 ≤ s.allocMap.getD 1 0 ∧ s.low + d + 0x2000 ≤ s.allocMap.getD 1 0 ∧
      trimArena s = { internalUnmapPages s s.low d with low := s.low + d } := by
  unfold trimArena
  split
  · next hc =>
      simp only
      split
      · next hd => exact .inr ⟨_, by omega, hc.1, by omega, by omega, rfl⟩
      · exact .inl rfl
  · exact .inl rfl

section

variable (h : AllocInv arch front s)
include h

/-- Unmapping leaves the pages the live blocks lie on: they are above the
first block. -/
theorem AllocInv.trim (hsafe : allocMapAddr + s.heap.allocMapSize ≤ s.heap.low ∨
      isUsed (s.heap.allocMap.getD 0 0) = true ∨
      s.heap.allocMap.getD 1 0 < s.heap.low + 0x5000) :
    AllocInv arch front { s with heap := trimArena s.heap } := by
  obtain ⟨m, rest, hfront, h0, h1⟩ := h.first_two
  rcases trimArena_cases s.heap with he | ⟨d, hd, hfree, hlarge, hend, he⟩
  · rwa [he]
  have habove : allocMapAddr + s.heap.allocMapSize ≤ s.heap.low := by
    rcases hsafe with hsafe | hused | hsmall
    · exact hsafe
    · rw [hused] at hfree
      cases hfree
    · omega
  rw [h0] at hfree
  rw [he]
  have hla := h.low_aligned
  refine ⟨h.map_eq, h.ne, h.map, h.size_aligned, h.size_pos, h.fits, h.first,
    fun p h1 h2 => ?_, show (s.heap.low + d) % 0x1000 = 0 by omega, fun blk hblk => ?_,
    fun p h1 h2 => ?_, h.returned_even⟩
  · replace h2 : p * 0x1000 < allocMapAddr + s.heap.allocMapSize := h2
    have hnot : inRange s.heap.low d p = false := by
      simp only [inRange, Bool.and_eq_false_iff, decide_eq_false_iff_not]
      omega
    show (s.heap.mapped p && !inRange s.heap.low d p) = true
    rw [hnot, h.map_pages p h1 h2]
    rfl
  · have hentry := h.map.live_entry blk hblk
    rw [hfront] at hentry
    have hsorted := h.map.sorted
    rw [hfront] at hsorted
    have hused := isUsed_succ (h.map.live_ok blk hblk).2.1
    rcases mem_cons.mp hentry with heq | hmem
    · rw [heq, hfree] at hused
      cases hused
    · have := (sorted_head hsorted _ (mem_append_left _ hmem)).2
      show s.heap.low + d ≤ blk.addr
      omega
  · replace h1 : s.heap.low + d ≤ p * 0x1000 := h1
    have hnot : inRange s.heap.low d p = false := by
      simp only [inRange, Bool.and_eq_false_iff, decide_eq_false_iff_not]
      omega
    show (s.heap.mapped p && !inRange s.heap.low d p) = true
    rw [hnot, h.pages p (by omega) h2]
    rfl

/-- Clearing an entry takes its block out of the live ones; a pointer that
has no entry changes none. -/
theorem AllocInv.internalFree {ptr : Nat} (h16 : ptr % 16 = 0) (hsafe : TrimSafe s.heap ptr) :
    ∃ front', AllocInv arch front'
      { s with
        heap := internalFree s.heap ptr
        live := s.live.filter fun blk => blk.addr ≠ ptr } := by
  rw [TrimSafe, setUsed_of_dvd h16, h.map_eq] at hsafe
  rw [Libc.internalFree, setUsed_of_dvd h16, h.map_eq]
  by_cases hmem : ptr + 1 ∈ front
  · obtain ⟨front', heq, hne, hle, hhead, hmap⟩ := h.map.free_live h16 hmem
    rw [heq] at hsafe ⊢
    have hfits := h.fits
    have hinv : AllocInv arch front'
        { s with
          heap := { s.heap with allocMap := front' ++ [arch.allocHigh] }
          live := s.live.filter fun blk => blk.addr ≠ ptr } :=
      ⟨rfl, hne, hmap, h.size_aligned, h.size_pos,
        le_trans (Nat.mul_le_mul_left _ (by omega)) hfits, by rw [hhead, h.first],
        h.map_pages, h.low_aligned, fun blk hblk => h.low_le blk (mem_of_mem_filter hblk), h.pages,
        h.returned_even⟩
    exact ⟨front', hinv.trim hsafe⟩
  · have hkeep : (s.live.filter fun blk => blk.addr ≠ ptr) = s.live := by
      refine filter_eq_self.mpr fun blk hblk => ?_
      simp only [decide_eq_true_eq]
      rintro rfl
      exact hmem (h.map.live_entry blk hblk)
    rw [h.map.free_stale hmem, ← h.map_eq] at hsafe ⊢
    rw [hkeep]
    exact ⟨front, h.trim hsafe⟩

theorem AllocInv.above {blk : HeapBlock} (hblk : blk ∈ s.live) : allocMapAddr ≤ blk.addr := by
  have hin := (h.map.inside hblk).1
  rw [h.first] at hin
  omega

theorem AllocInv.free {ptr : Nat} (hptr : ptr = 0 ∨ ptr ∈ s.returned)
    (hok : CallSafe arch s (.free ptr)) : ∃ front', AllocInv arch front' (s.freed ptr) := by
  by_cases hz : ptr = 0 ∨ ptr = allocZero
  · have hkeep : (s.live.filter fun blk => blk.addr ≠ ptr) = s.live := by
      refine filter_eq_self.mpr fun blk hblk => ?_
      have hge := h.above hblk
      simp only [decide_eq_true_eq]
      unfold allocMapAddr at hge
      unfold allocZero at hz
      omega
    refine ⟨front, ?_⟩
    rwa [AllocSys.freed, Libc.free, if_pos hz, hkeep]
  · have h16 : ptr % 16 = 0 := by
      rcases hptr with rfl | hp
      · rfl
      · exact h.returned_even ptr hp
    rw [AllocSys.freed, Libc.free, if_neg hz]
    exact h.internalFree h16 (hok.trim ptr (if_neg hz))

end

/-! ## Runs -/

theorem AllocInv.zero (h : AllocInv arch front s) (alignment size : Nat) :
    AllocInv arch front (s.allocated (allocZero, s.heap) alignment size) := by
  have hz : ∀ p ∈ allocZero :: s.returned, p % 16 = 0 := by
    intro p hp
    rcases mem_cons.mp hp with rfl | hp
    · rfl
    · exact h.returned_even p hp
  exact { h with returned_even := hz }

theorem AllocInv.step {op : AllocOp} {s' : AllocSys} (h : AllocInv arch front s)
    (hok : CallSafe arch s op) (hstep : AllocStep arch s op s') :
    ∃ front', AllocInv arch front' s' := by
  cases hstep with
  | malloc r size =>
    unfold malloc
    split
    · exact ⟨front, h.zero _ _⟩
    · next h0 => exact h.internalAlignedAlloc (hok.growth r 16 size (by simp [AllocOp.request, h0]))
  | calloc r nmemb size =>
    unfold calloc
    split
    · exact ⟨front, h.zero _ _⟩
    next h0 =>
      simp only
      split
      · exact ⟨front, h⟩
      next h1 =>
        -- the product has not wrapped
        have htotal : totalSize arch nmemb size = nmemb * size := by
          have hle : totalSize arch nmemb size ≤ nmemb * size := Nat.mod_le _ _
          have hdiv : totalSize arch nmemb size / nmemb = size := by omega
          have hge := Nat.mul_div_le (totalSize arch nmemb size) nmemb
          rw [hdiv] at hge
          omega
        have hreq : (AllocOp.calloc r nmemb size).request arch =
            some (r, 16, totalSize arch nmemb size) := by
          simp only [AllocOp.request, if_neg h0, if_neg h1]
        have := h.internalAlignedAlloc (hok.growth r 16 _ hreq)
        rwa [htotal] at this ⊢
  | alignedAlloc r alignment size =>
    unfold alignedAlloc
    split
    · exact ⟨front, h⟩
    · next h0 =>
        exact h.internalAlignedAlloc (hok.growth r alignment size (by simp [AllocOp.request, h0]))
  | free ptr hptr => exact h.free hptr hok

theorem AllocInv.initial (arch : Arch) (before : Nat → Bool) :
    AllocInv arch [allocMapAddr + 0x1000] ⟨allocInit arch before, [], []⟩ := by
  have hhigh := arch.allocHigh_aligned
  have hlt : allocMapAddr + 0x1000 < arch.allocHigh := by cases arch <;> decide
  refine ⟨rfl, by simp, ⟨by omega, ?_, ?_, ?_, nofun, nofun, ?_, nodup_nil, nofun⟩,
    show 0x1000 % 0x1000 = 0 by decide, le_rfl, ?_, rfl, fun p h1 h2 => ?_, ?_, nofun,
    fun p h1 h2 => ?_, nofun⟩
  · intro z hz
    rw [mem_singleton.mp hz]
    exact .inl rfl
  · simpa using hlt
  · intro x hx y hy hxy
    rw [mem_singleton] at hx hy
    omega
  · intro z hz hu
    rw [mem_singleton.mp hz] at hu
    cases hu
  · have hw : arch.word * 2 ≤ 0x1000 := by cases arch <;> decide
    exact hw
  · simp only [allocInit] at h2 ⊢
    have : inRange allocMapAddr 0x1000 p = true := by
      simp only [inRange, Bool.and_eq_true, decide_eq_true_eq]
      omega
    simp [this]
  · simp only [allocInit]
    omega
  simp only [allocInit] at h1 ⊢
  have : inRange (arch.allocHigh - 0x1000) 0x1000 p = true := by
    simp only [inRange, Bool.and_eq_true, decide_eq_true_eq]
    omega
  rw [this, Bool.or_true]

end invariant

variable {n : Nat}

end Dancy.Libc
