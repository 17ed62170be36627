import Dancy.Heap.Map
import Dancy.Lib.Run

/-!
# The kernel heap over whole runs

A run is any sequence of allocations, frees of pointers that were
returned before (live or not) and static pages. The map extension of
`heap_aligned_alloc` is made after the block has been chosen, so a block
chosen in the first page of the first block is overrun by the array:
`MapGrowthSafe` is the condition under which it is not.
-/

namespace Dancy.Heap

open Dancy.Lib List

structure HeapSys where
  heap : HeapState
  live : List HeapBlock
  (pages returned : List Nat)

inductive HeapOp where
  | alloc (alignment size : Nat)
  | free (ptr : Nat)
  | staticPage

/-- A call that answers NULL gives the caller nothing. -/
def HeapSys.afterAlloc (s : HeapSys) (alignment size : Nat) : HeapSys :=
  let r := heapAlignedAlloc s.heap alignment size
  if r.1 = 0 then { s with heap := r.2 }
  else
    { s with
      heap := r.2
      live := ⟨r.1, size, alignment⟩ :: s.live
      returned := r.1 :: s.returned }

def HeapSys.afterFree (s : HeapSys) (ptr : Nat) : HeapSys :=
  { s with
    heap := heapFree s.heap ptr
    live := s.live.filter fun blk => blk.addr ≠ ptr }

def HeapSys.afterStaticPage (s : HeapSys) : HeapSys :=
  let r := heapAllocStaticPage s.heap
  if r.1 = 0 then { s with heap := r.2 }
  else { s with heap := r.2, pages := r.1 :: s.pages, returned := r.1 :: s.returned }

inductive HeapStep : HeapSys → HeapOp → HeapSys → Prop where
  | alloc (s : HeapSys) (alignment size : Nat) :
      HeapStep s (.alloc alignment size) (s.afterAlloc alignment size)
  | free (s : HeapSys) (ptr : Nat) : ptr = 0 ∨ ptr ∈ s.returned →
      HeapStep s (.free ptr) (s.afterFree ptr)
  | staticPage (s : HeapSys) : HeapStep s .staticPage s.afterStaticPage

/-- An allocation that finds the array full does not carve its block out
of the page the array is about to take: the array is not full, or it
cannot grow, or a block above the first one serves the request, or the
first one does not, or it leaves a page in front. -/
def MapGrowthSafe (s : HeapState) (alignment size : Nat) : Prop :=
  4 * s.heapMap.length < s.heapMapSize ∨
  sub32 (s.heapMap.getD 1 0) (s.heapMap.getD 0 0) < 0x2000 ∨
  (∃ k, 0 < k ∧ k + 1 < s.heapMap.length ∧ Serves s.heapMap alignment size k) ∨
  ¬ Serves s.heapMap alignment size 0 ∨
  s.heapMap.getD 0 0 + 0x1000 + size
      + (clearUsed (s.heapMap.getD 1 0) - size) % alignment
    ≤ clearUsed (s.heapMap.getD 1 0)

def growthSafe (s : HeapSys) : HeapOp → Prop
  | .alloc alignment size => MapGrowthSafe s.heap (effectiveAlignment alignment) size
  | _ => True

def HeapSys.ranges (s : HeapSys) : List (Nat × Nat) :=
  s.live.map (fun blk => (blk.addr, blk.addr + blk.size)) ++ s.pages.map fun p => (p, p + 0x1000)

def Apart (a b : Nat × Nat) : Prop := a.2 ≤ b.1 ∨ b.2 ≤ a.1

/-- The map is in order, and the live blocks are apart from each other and from it. -/
structure HeapGood (heapAddr stackArrayAddr : Nat) (s : HeapSys) : Prop where
  increasing : s.heap.heapMap.Pairwise (· < ·)
  requested : ∀ blk ∈ s.live, 0 < blk.size ∧ blk.alignment ∣ blk.addr
  inside : ∀ r ∈ s.ranges, heapAddr ≤ r.1 ∧ r.2 ≤ stackArrayAddr
  disjoint : s.ranges.Pairwise Apart
  map_disjoint : ∀ r ∈ s.ranges,
    Apart r (s.heap.heapMapAddr, s.heap.heapMapAddr + s.heap.heapMapSize)
  map_fits : 4 * s.heap.heapMap.length ≤ s.heap.heapMapSize
  single : s.live = [] →
    s.heap.heapMap = [s.heap.heapMapAddr + s.heap.heapMapSize, stackArrayAddr]
  null_alloc : ∀ alignment size, (heapAlignedAlloc s.heap alignment size).1 = 0 →
    (heapAlignedAlloc s.heap alignment size).2 = s.heap

/-- The whole invariant, `front` being the map without its last entry. -/
structure HeapInv (heapAddr top : Nat) (front : List Nat) (s : HeapSys) : Prop where
  map_eq : s.heap.heapMap = front ++ [top]
  ne : front ≠ []
  top_lt : top < 0x100000000
  map : MapInv top front s.live
  addr_aligned : s.heap.heapMapAddr % 0x1000 = 0
  size_aligned : s.heap.heapMapSize % 0x1000 = 0
  base_le : heapAddr ≤ s.heap.heapMapAddr
  fits : 4 * (front.length + 1) ≤ s.heap.heapMapSize
  first : clearUsed (front.headD 0) = s.heap.heapMapAddr + s.heap.heapMapSize
  pages_below : ∀ p ∈ s.pages, heapAddr ≤ p ∧ p + 0x1000 ≤ s.heap.heapMapAddr
  pages_apart : s.pages.Pairwise fun p q => p + 0x1000 ≤ q ∨ q + 0x1000 ≤ p
  returned_even : ∀ p ∈ s.returned, p % 16 = 0 ∧ p < 0x100000000

variable {heapAddr top : Nat} {front : List Nat} {s : HeapSys}

theorem sub32_of_le {a b : Nat} (hle : b ≤ a) (hlt : a < 0x100000000) :
    sub32 a b = a - b := by
  unfold sub32
  omega

theorem u32_of_lt {a : Nat} (h : a < 0x100000000) : u32 a = a := Nat.mod_eq_of_lt h

theorem HeapInv.first_two (h : HeapInv heapAddr top front s) :
    ∃ m rest, front = m :: rest ∧ s.heap.heapMap.getD 0 0 = m ∧
      s.heap.heapMap.getD 1 0 = blockEnd rest top ∧ m < blockEnd rest top ∧
      blockEnd rest top < 0x100000000 := by
  cases hf : front with
  | nil => exact absurd hf h.ne
  | cons m rest =>
    refine ⟨m, rest, rfl, by simp [h.map_eq, hf], ?_, ?_, ?_⟩
    · rw [h.map_eq, hf, blockEnd]
      cases rest <;> rfl
    · have hs := h.map.sorted
      rw [hf] at hs
      exact (sorted_head hs _ (blockEnd_mem rest top)).1
    rcases mem_append.mp (blockEnd_mem rest top) with hin | hin
    · have := h.map.front_lt_top
        (by rw [hf]; exact .tail _ hin)
      have := h.top_lt
      omega
    · rw [mem_singleton] at hin
      rw [hin]
      exact h.top_lt

variable {heap : HeapState} {alignment size n : Nat}

/-- What growing the array does: either nothing had to be done, or the
first block is free, larger than a page and has given one to the array. -/
theorem HeapInv.extend (h : HeapInv heapAddr top front s) (he : extendMap s.heap = some heap) :
    (heap = s.heap ∧ 4 * s.heap.heapMap.length < s.heap.heapMapSize) ∨
    ∃ m rest, front = m :: rest ∧ isUsed m = false ∧ m + 0x2000 ≤ blockEnd rest top ∧
      s.heap.heapMapSize ≤ 4 * s.heap.heapMap.length ∧
      heap.heapMapAddr = s.heap.heapMapAddr ∧
      heap.heapMapSize = s.heap.heapMapSize + 0x1000 ∧
      heap.heapMap = (m + 0x1000) :: rest ++ [top] := by
  obtain ⟨m, rest, hfront, h0, h1, hlt, hend⟩ := h.first_two
  unfold extendMap at he
  simp only [h0, h1] at he
  split at he
  · rename_i hfull
    split at he
    · cases he
    split at he
    · cases he
    rename_i hfree
    rw [Bool.not_eq_true] at hfree
    split at he
    · cases he
    rename_i hroom
    cases he
    have hfirst := h.first
    rw [hfront, headD_cons, clearUsed_of_free hfree] at hfirst
    rw [sub32_of_le (le_of_lt hlt) hend] at hroom
    refine .inr ⟨m, rest, hfront, hfree, by omega, hfull, rfl, rfl, ?_⟩
    rw [u32_of_lt (by omega), h.map_eq, hfront,
      show s.heap.heapMapAddr + (s.heap.heapMapSize + 0x1000) = m + 0x1000 by omega]
    rfl
  · cases he
    exact .inl ⟨rfl, by omega⟩

theorem HeapInv.extended (h : HeapInv heapAddr top front s) (he : extendMap s.heap = some heap) :
    ∃ front', HeapInv heapAddr top front' { s with heap := heap } ∧
      4 * (front'.length + 2) ≤ heap.heapMapSize ∧
      (front' = front ∨ ∃ m rest, front = m :: rest ∧ front' = (m + 0x1000) :: rest ∧
        m + 0x2000 ≤ blockEnd rest top ∧ s.heap.heapMapSize ≤ 4 * s.heap.heapMap.length) := by
  have hfits := h.fits
  have hsize := h.size_aligned
  have hlen : s.heap.heapMap.length = front.length + 1 := by simp [h.map_eq]
  rcases h.extend he with ⟨rfl, hlt⟩ | ⟨m, rest, hfront, hfree, hroom, hfull, ha, hs, hm⟩
  · exact ⟨front, h, by omega, .inl rfl⟩
  have hfirst := h.first
  have hmap := h.map
  subst hfront
  rw [headD_cons, clearUsed_of_free hfree] at hfirst
  have hfree' : isUsed (m + 0x1000) = false := by
    rw [isUsed_eq_false] at hfree ⊢
    omega
  have hlen' : ((m + 0x1000) :: rest).length = (m :: rest).length := rfl
  refine ⟨(m + 0x1000) :: rest, ⟨hm, by simp, h.top_lt, hmap.raiseFirst hfree hroom,
    by simp only [ha]; exact h.addr_aligned, by simp only [hs]; omega,
    by simp only [ha]; exact h.base_le, by simp only [hlen']; omega, ?_,
    by simp only [ha]; exact h.pages_below, h.pages_apart, h.returned_even⟩, ?_,
    .inr ⟨m, rest, rfl, rfl, hroom, hfull⟩⟩
  · rw [headD_cons, clearUsed_of_free hfree']
    simp only [hs]
    omega
  · omega

/-! ## Allocation -/

theorem effectiveAlignment_spec (h0 : alignment ≠ 0) (hpow : alignment &&& (alignment - 1) = 0) :
    16 ∣ effectiveAlignment alignment ∧ alignment ∣ effectiveAlignment alignment := by
  obtain ⟨k, rfl⟩ := (Nat.and_sub_one_eq_zero_iff_isPowerOfTwo h0).mp hpow
  unfold effectiveAlignment
  rcases lt_or_ge k 4 with hk | hk
  · have hlt : 2 ^ k < 16 := Nat.pow_lt_pow_right (by decide) hk
    rw [if_pos hlt]
    exact ⟨dvd_refl _, Nat.pow_dvd_pow 2 (le_of_lt hk)⟩
  · have hge : 16 ≤ 2 ^ k := Nat.pow_le_pow_right (show 0 < 2 by decide) hk
    rw [if_neg (not_lt.mpr hge)]
    exact ⟨Nat.pow_dvd_pow 2 hk, dvd_refl _⟩

theorem insertIdx_after (b a : Nat) (l : List Nat) :
    ∀ l₁ : List Nat, (l₁ ++ b :: l).insertIdx (l₁.length + 1) a = l₁ ++ b :: a :: l := by
  intro l₁
  induction l₁ with
  | nil => rfl
  | cons x l₁ ih =>
    rw [cons_append, length_cons, insertIdx_succ_cons, ih]
    rfl

section place

variable {top : Nat} {front front' l₁ l₂ : List Nat} {live : List HeapBlock}

/-- The map after the block has been entered:
`old` is the map the search saw, `new` the map when it is entered. -/
def enterBlock (old new : List Nat) (i addr : Nat) : List Nat :=
  if addr ≠ old.getD (i - 1) 0 then new.insertIdx i (setUsed addr)
  else new.set (i - 1) (setUsed addr)

theorem enter_inner (old : List Nat) {b addr size alignment i : Nat}
    (h : MapInv top (l₁ ++ b :: l₂) live) (hc : Carved top b l₂ addr size alignment)
    (hi : l₁.length + 1 = i) (hold : old.getD (i - 1) 0 = b) :
    ∃ front', enterBlock old (l₁ ++ b :: l₂ ++ [top]) i addr = front' ++ [top] ∧
      MapInv top front' (⟨addr, size, alignment⟩ :: live) ∧
      front'.length ≤ (l₁ ++ b :: l₂).length + 1 ∧ front' ≠ [] ∧
      clearUsed (front'.headD 0) = clearUsed ((l₁ ++ b :: l₂).headD 0) := by
  by_cases hab : addr = b
  · subst hab
    refine ⟨l₁ ++ (addr + 1) :: l₂, ?_, h.replace hc, by simp, by simp, ?_⟩
    · rw [enterBlock, hold, if_neg (by simp), setUsed_of_dvd hc.aligned16]
      simp [← hi]
    cases l₁ with
    | nil =>
      have := hc.aligned16
      simp only [nil_append, headD_cons, clearUsed]
      omega
    | cons a l₁ => rfl
  · refine ⟨l₁ ++ b :: (addr + 1) :: l₂, ?_, h.insert hc, by simp; omega, by simp, ?_⟩
    · rw [enterBlock, hold, if_pos hab, setUsed_of_dvd hc.aligned16, ← hi, append_assoc,
        cons_append, insertIdx_after]
      simp
    · cases l₁ <;> rfl

/-- The block of the search is entered in the map, which may have given its
first page away, but not out of the block. -/
theorem mapInv_place {ea alignment size i addr : Nat} (h : MapInv top front live)
    (h' : MapInv top front' live)
    (hfind : findBlock (front ++ [top]) ea size front.length = some (i, addr))
    (h16 : 16 ∣ ea) (hdvd : alignment ∣ ea) (hsize : 0 < size)
    (hgrow : front' = front ∨ ∃ m rest, front = m :: rest ∧ front' = (m + 0x1000) :: rest ∧
      (i = 1 → m + 0x1000 ≤ addr)) :
    ∃ new, enterBlock (front ++ [top]) (front' ++ [top]) i addr = new ++ [top] ∧
      MapInv top new (⟨addr, size, alignment⟩ :: live) ∧
      new.length ≤ front.length + 1 ∧ new ≠ [] ∧
      clearUsed (new.headD 0) = clearUsed (front'.headD 0) := by
  obtain ⟨hi1, hi2, hfree, hlt, hcarve, -⟩ := findBlock_some hfind
  obtain ⟨l₁, l₂, hfront, hl₁, hend⟩ := split_front top (show i - 1 < front.length by omega)
  rw [show i - 1 + 1 = i by omega] at hend
  obtain ⟨b, hb⟩ : ∃ b, b = (front ++ [top]).getD (i - 1) 0 := ⟨_, rfl⟩
  rw [← hb] at hfront hfree hlt hcarve
  rw [hend] at hlt hcarve
  obtain ⟨hle, hfit, haligned⟩ := carve_some hlt hcarve
  have hc : Carved top b l₂ addr size alignment :=
    ⟨hfree, hle, hfit, hsize, Nat.mod_eq_zero_of_dvd (dvd_trans h16 haligned),
      dvd_trans hdvd haligned⟩
  rcases hgrow with rfl | ⟨m, rest, hmr, rfl, hroom⟩
  · have := enter_inner (front' ++ [top]) (hfront ▸ h) hc (by omega) hb.symm
    rwa [← hfront] at this
  rw [hmr] at hfront ⊢
  rw [hmr] at hb
  cases l₁ with
  | nil =>
    rw [nil_append, cons.injEq] at hfront
    obtain ⟨rfl, rfl⟩ := hfront
    have hi : i = 1 := by simp at hl₁; omega
    subst hi
    have hpage := hroom rfl
    -- the entry has moved, so the block is entered after it
    have hfree' : isUsed (m + 0x1000) = false := by
      rw [isUsed_eq_false] at hfree ⊢
      omega
    refine ⟨(m + 0x1000) :: (addr + 1) :: rest, ?_,
      @MapInv.insert top [] rest live _ _ _ _ h' ⟨hfree', hpage, hfit, hsize, hc.aligned16,
        hc.aligned⟩, by simp, by simp, rfl⟩
    rw [enterBlock, ← hb, if_pos (by omega), setUsed_of_dvd hc.aligned16]
    rfl
  | cons a l₁ =>
    rw [cons_append, cons.injEq] at hfront
    obtain ⟨rfl, hrest⟩ := hfront
    subst hrest
    have h'' : MapInv top ((m + 0x1000) :: l₁ ++ b :: l₂) live := h'
    exact enter_inner (m :: (l₁ ++ b :: l₂) ++ [top]) h'' hc (by simp at hl₁ ⊢; omega) hb.symm

end place

/-- A block from the first entry leaves a page in front of it when a block above the
first one would not have served the request, or the first one leaves a page. -/
theorem page_left {l : List Nat} {ea size addr : Nat}
    (hfind : findBlock l ea size (l.length - 1) = some (1, addr))
    (hs : (∃ k, 0 < k ∧ k + 1 < l.length ∧ Serves l ea size k) ∨ ¬Serves l ea size 0 ∨
      l.getD 0 0 + 0x1000 + size + (clearUsed (l.getD 1 0) - size) % ea ≤ clearUsed (l.getD 1 0)) :
    l.getD 0 0 + 0x1000 ≤ addr := by
  obtain ⟨-, -, hfree, hlt, hcarve, habove⟩ := findBlock_some hfind
  simp only [Nat.sub_self] at hfree hlt hcarve
  rcases hs with ⟨k, hk1, hk2, hs⟩ | hs | hs
  · exact absurd hs (habove k (by omega) (by omega))
  · exact absurd ⟨hfree, hlt, by rw [hcarve]; rfl⟩ hs
  · unfold carve at hcarve
    split at hcarve
    · cases hcarve
    simp only at hcarve
    split at hcarve
    · simp only [Option.some.injEq] at hcarve
      omega
    · cases hcarve

theorem heapAlignedAlloc_cases (s : HeapState) (alignment size : Nat) :
    heapAlignedAlloc s alignment size = (0, s) ∨
    ∃ i addr heap, alignment ≠ 0 ∧ alignment &&& (alignment - 1) = 0 ∧ 0 < size ∧
      findBlock s.heapMap (effectiveAlignment alignment) size (s.heapMap.length - 1)
        = some (i, addr) ∧
      addr ≠ 0 ∧ extendMap s = some heap ∧
      heapAlignedAlloc s alignment size =
        (addr, { heap with heapMap := enterBlock s.heapMap heap.heapMap i addr }) := by
  by_cases h1 : alignment = 0 ∨ alignment > 0x2000
  · exact .inl (by rw [heapAlignedAlloc, if_pos h1])
  by_cases h2 : alignment &&& (alignment - 1) ≠ 0
  · exact .inl (by rw [heapAlignedAlloc, if_neg h1, if_pos h2])
  by_cases h3 : size = 0 ∨ size > 0x10000000
  · exact .inl (by simp [heapAlignedAlloc, if_pos h3])
  rw [heapAlignedAlloc, if_neg h1, if_neg h2, if_neg h3]
  cases hfind : findBlock s.heapMap (effectiveAlignment alignment) size
      (s.heapMap.length - 1) with
  | none => exact .inl rfl
  | some r =>
    obtain ⟨i, addr⟩ := r
    by_cases h0 : addr = 0
    · exact .inl (by simp [h0])
    cases hext : extendMap s with
    | none => simp
    | some heap =>
      refine .inr ⟨i, addr, heap, by omega, not_not.mp h2, by omega, rfl, h0, rfl, ?_⟩
      simp only [h0, if_false, enterBlock]
      split <;> rfl

theorem heapAlignedAlloc_null (s : HeapState) (alignment size : Nat)
    (h : (heapAlignedAlloc s alignment size).1 = 0) :
    (heapAlignedAlloc s alignment size).2 = s := by
  rcases heapAlignedAlloc_cases s alignment size with heq | ⟨i, addr, heap, -, -, -, -, h0, -, heq⟩
  · rw [heq]
  · rw [heq] at h
    exact absurd h h0

section

variable (h : HeapInv heapAddr top front s)
include h

theorem HeapInv.alloc (hsafe : MapGrowthSafe s.heap (effectiveAlignment alignment) size) :
    ∃ front', HeapInv heapAddr top front' (s.afterAlloc alignment size) := by
  rcases heapAlignedAlloc_cases s.heap alignment size with
    heq | ⟨i, addr, heap, ha0, hpow, hsize, hfind, h0, hext, heq⟩
  · refine ⟨front, ?_⟩
    rwa [HeapSys.afterAlloc, heq]
  obtain ⟨h16, hdvd⟩ := effectiveAlignment_spec ha0 hpow
  have hlen : s.heap.heapMap.length - 1 = front.length := by simp [h.map_eq]
  obtain ⟨front', hinv, hroom, hgrow⟩ := h.extended hext
  have hgrow' : front' = front ∨ ∃ m rest, front = m :: rest ∧ front' = (m + 0x1000) :: rest ∧
      (i = 1 → m + 0x1000 ≤ addr) := by
    rcases hgrow with hf | ⟨m, rest, hf, hf', hr, hfull⟩
    · exact .inl hf
    refine .inr ⟨m, rest, hf, hf', ?_⟩
    rintro rfl
    obtain ⟨m', rest', hmr, hm, hend, hlt, hbound⟩ := h.first_two
    rw [hf, cons.injEq] at hmr
    obtain ⟨rfl, rfl⟩ := hmr
    rcases hsafe with hs | hs | hs
    · omega
    · rw [hm, hend, sub32_of_le (le_of_lt hlt) hbound] at hs
      omega
    · exact hm ▸ page_left hfind hs
  obtain ⟨new, hnew, hmap, hle, hne, hhead⟩ :=
    mapInv_place h.map hinv.map (by rw [← h.map_eq, ← hlen]; exact hfind) h16 hdvd hsize hgrow'
  have hsame : front'.length = front.length := by
    rcases hgrow' with rfl | ⟨m, rest, rfl, rfl, -⟩ <;> rfl
  have hafter : s.afterAlloc alignment size = { s with
        heap := { heap with heapMap := new ++ [top] }
        live := ⟨addr, size, alignment⟩ :: s.live
        returned := addr :: s.returned } := by
    rw [HeapSys.afterAlloc, heq, ← hnew, ← h.map_eq, ← hinv.map_eq]
    simp [h0]
  rw [hafter]
  refine ⟨new, rfl, hne, h.top_lt, hmap, hinv.addr_aligned, hinv.size_aligned, hinv.base_le,
    ?_, hhead.trans hinv.first, hinv.pages_below, h.pages_apart, fun p hp => ?_⟩
  · simp only at hroom ⊢
    omega
  · rcases mem_cons.mp hp with rfl | hp
    · have hin := (hmap.inside mem_cons_self).2
      have := h.top_lt
      exact ⟨(hmap.live_ok _ mem_cons_self).2.1, by simp only at hin; omega⟩
    · exact h.returned_even p hp

theorem HeapInv.free {ptr : Nat} (hptr : ptr = 0 ∨ ptr ∈ s.returned) :
    ∃ front', HeapInv heapAddr top front' (s.afterFree ptr) := by
  have hpos : ∀ blk ∈ s.live, blk.addr ≠ 0 := by
    intro blk hblk h0
    have hin := (h.map.inside hblk).1
    rw [h.first] at hin
    have := h.fits
    omega
  by_cases h0 : ptr = 0
  · -- `free(NULL)`
    refine ⟨front, ?_⟩
    have hkeep : (s.live.filter fun blk => blk.addr ≠ ptr) = s.live :=
      filter_eq_self.mpr fun blk hblk => by simpa [h0] using hpos blk hblk
    rwa [HeapSys.afterFree, heapFree, if_pos h0, hkeep]
  · obtain ⟨h16, hlt⟩ := h.returned_even ptr (hptr.resolve_left h0)
    have hset : setUsed (u32 ptr) = ptr + 1 := by
      rw [u32_of_lt hlt, setUsed_of_dvd h16]
    by_cases hmem : ptr + 1 ∈ front
    · obtain ⟨front', heq, hne, hle, hhead, hmap⟩ := h.map.free_live h16 hmem
      have hfits := h.fits
      refine ⟨front', ⟨?_, hne, h.top_lt, hmap, ?_, ?_, ?_, ?_, ?_, ?_,
        h.pages_apart, h.returned_even⟩⟩ <;>
        simp only [HeapSys.afterFree, heapFree, if_neg h0]
      · rw [hset, h.map_eq, heq]
      · exact h.addr_aligned
      · exact h.size_aligned
      · exact h.base_le
      · omega
      · rw [hhead, h.first]
      · exact h.pages_below
    · have hkeep : (s.live.filter fun blk => blk.addr ≠ ptr) = s.live := by
        refine filter_eq_self.mpr fun blk hblk => ?_
        have hentry := h.map.live_entry blk hblk
        simp only [decide_eq_true_eq]
        intro heq
        exact hmem (heq ▸ hentry)
      refine ⟨front, ?_⟩
      rwa [HeapSys.afterFree, heapFree, if_neg h0, hkeep, hset, h.map_eq,
        h.map.free_stale hmem, ← h.map_eq]

theorem HeapInv.staticPage : ∃ front', HeapInv heapAddr top front' s.afterStaticPage := by
  obtain ⟨m, rest, hfront, h0, h1, hlt, hend⟩ := h.first_two
  subst hfront
  cases hfree : isUsed m with
  | true =>
    refine ⟨m :: rest, ?_⟩
    have hdef : heapAllocStaticPage s.heap = (0, s.heap) := by
      rw [heapAllocStaticPage, h0, if_pos hfree]
    rwa [HeapSys.afterStaticPage, hdef]
  | false =>
    have hfirst := h.first
    rw [headD_cons, clearUsed_of_free hfree] at hfirst
    rcases lt_or_ge (blockEnd rest top - m) 0x2000 with hsmall | hroom
    · refine ⟨m :: rest, ?_⟩
      have hdef : heapAllocStaticPage s.heap = (0, s.heap) := by
        rw [heapAllocStaticPage, h0, h1, hfree, sub32_of_le (le_of_lt hlt) hend]
        simp [hsmall]
      rwa [HeapSys.afterStaticPage, hdef]
    · have hdef : heapAllocStaticPage s.heap = (s.heap.heapMapAddr, { s.heap with
            heapMapAddr := s.heap.heapMapAddr + 0x1000
            heapMap := (m + 0x1000) :: rest ++ [top] }) := by
        rw [heapAllocStaticPage, h0, h1, hfree, sub32_of_le (le_of_lt hlt) hend,
          if_neg (by simp), if_neg (not_lt.mpr hroom), h.map_eq]
        simp only
        rw [u32_of_lt (by omega),
          show s.heap.heapMapAddr + 0x1000 + s.heap.heapMapSize = m + 0x1000 by omega]
        rfl
      have hfree' : isUsed (m + 0x1000) = false := by
        rw [isUsed_eq_false] at hfree ⊢
        omega
      have hbase := h.base_le
      have haligned := h.addr_aligned
      -- the state with the moved array; the page below it is not in it yet
      have hmoved : HeapInv heapAddr top ((m + 0x1000) :: rest)
          { s with
            heap := { s.heap with
              heapMapAddr := s.heap.heapMapAddr + 0x1000
              heapMap := (m + 0x1000) :: rest ++ [top] } } := by
        refine ⟨rfl, by simp, h.top_lt, h.map.raiseFirst hfree (by omega), ?_,
          h.size_aligned, ?_, h.fits, ?_, fun p hp => ?_, h.pages_apart, h.returned_even⟩
        · simp only
          omega
        · simp only
          omega
        · simp only [headD_cons, clearUsed_of_free hfree']
          omega
        · have := h.pages_below p hp
          simp only
          omega
      refine ⟨(m + 0x1000) :: rest, ?_⟩
      rw [HeapSys.afterStaticPage, hdef]
      split
      · exact hmoved
      refine ⟨hmoved.map_eq, hmoved.ne, hmoved.top_lt, hmoved.map, hmoved.addr_aligned,
        hmoved.size_aligned, hmoved.base_le, hmoved.fits, hmoved.first, ?_, ?_, ?_⟩
      · intro p hp
        rcases mem_cons.mp hp with rfl | hp
        · exact ⟨hbase, le_rfl⟩
        · exact hmoved.pages_below p hp
      · refine pairwise_cons.mpr ⟨fun q hq => ?_, h.pages_apart⟩
        exact .inr (h.pages_below q hq).2
      · intro p hp
        rcases mem_cons.mp hp with rfl | hp
        · omega
        · exact h.returned_even p hp

end

/-! ## Runs -/

theorem HeapInv.step {op : HeapOp} {s' : HeapSys} (h : HeapInv heapAddr top front s)
    (hok : growthSafe s op) (hstep : HeapStep s op s') :
    ∃ front', HeapInv heapAddr top front' s' := by
  cases hstep with
  | alloc alignment size => exact h.alloc hok
  | free ptr hptr => exact h.free hptr
  | staticPage => exact h.staticPage

theorem HeapInv.good (h : HeapInv heapAddr top front s) : HeapGood heapAddr top s := by
  have hlive : ∀ blk ∈ s.live, s.heap.heapMapAddr + s.heap.heapMapSize ≤ blk.addr ∧
      blk.addr + blk.size ≤ top := fun blk hblk => h.first ▸ h.map.inside hblk
  have hmaptop : s.heap.heapMapAddr + s.heap.heapMapSize ≤ top := by
    cases hf : front with
    | nil => exact absurd hf h.ne
    | cons m rest =>
      have hfirst := h.first
      have hlt := h.map.front_lt_top (z := m) (by simp [hf])
      rw [hf, headD_cons] at hfirst
      have := clearUsed_le m
      omega
  have hranges : ∀ r ∈ s.ranges, (∃ blk ∈ s.live, r = (blk.addr, blk.addr + blk.size)) ∨
        ∃ p ∈ s.pages, r = (p, p + 0x1000) := by
    intro r hr
    rcases mem_append.mp hr with hr | hr
    · obtain ⟨blk, hblk, rfl⟩ := mem_map.mp hr
      exact .inl ⟨blk, hblk, rfl⟩
    · obtain ⟨p, hp, rfl⟩ := mem_map.mp hr
      exact .inr ⟨p, hp, rfl⟩
  have hbase := h.base_le
  refine ⟨h.map_eq ▸ h.map.sorted, fun blk hblk => ?_, fun r hr => ?_, ?_, fun r hr => ?_, ?_,
    fun hno => ?_, heapAlignedAlloc_null s.heap⟩
  · have hok := h.map.live_ok blk hblk
    omega
  · rcases hranges r hr with ⟨blk, hblk, rfl⟩ | ⟨p, hp, rfl⟩
    · have := hlive blk hblk
      exact ⟨by omega, this.2⟩
    · have := h.pages_below p hp
      omega
  · refine pairwise_append.mpr ⟨pairwise_map.mpr h.map.disjoint,
      pairwise_map.mpr h.pages_apart, fun a ha b hb => ?_⟩
    obtain ⟨blk, hblk, rfl⟩ := mem_map.mp ha
    obtain ⟨p, hp, rfl⟩ := mem_map.mp hb
    have h1 := hlive blk hblk
    have h2 := h.pages_below p hp
    exact .inr (by omega)
  · rcases hranges r hr with ⟨blk, hblk, rfl⟩ | ⟨p, hp, rfl⟩
    · exact .inr (hlive blk hblk).1
    · exact .inl (h.pages_below p hp).2
  · rw [h.map_eq, length_append]
    exact h.fits
  have hmap := h.map
  rw [hno] at hmap
  obtain ⟨m, hm, hfree⟩ := hmap.single h.ne
  have hfirst := h.first
  rw [hm, headD_cons, clearUsed_of_free hfree] at hfirst
  rw [h.map_eq, hm, hfirst]
  rfl

theorem HeapInv.initial (hinit : heapInit heapAddr top = some heap) (htop : top < 0x100000000) :
    HeapInv heapAddr top [heapAddr + 0x1000] ⟨heap, [], [], []⟩ := by
  simp only [heapInit] at hinit
  iterate 3
    split at hinit
    · cases hinit
  cases hinit
  have hfree : isUsed (heapAddr + 0x1000) = false := by
    rw [isUsed_eq_false]
    omega
  refine ⟨?_, by simp, htop, ?_, ?_, by simp, le_rfl, by simp, ?_, by simp,
    by simp, by simp⟩
  · simp only [u32_of_lt htop, u32_of_lt (show heapAddr + 0x1000 < 0x100000000 by omega)]
    rfl
  · refine ⟨by omega, ?_, ?_, ?_, by simp, by simp, ?_, by simp, by simp⟩
    · intro z hz
      rw [mem_singleton] at hz
      exact .inl (by omega)
    · simp
      omega
    · intro x hx y hy hxy
      rw [mem_singleton] at hx hy
      omega
    · intro z hz huz
      rw [mem_singleton] at hz
      rw [hz, hfree] at huz
      cases huz
  · simp only
    omega
  · exact clearUsed_of_free hfree

/-- **The heap under safe map growth.** After any run whose allocations
all meet `growthSafe`, the map is increasing, every block is aligned,
inside the heap, apart from every other block and from the map, a NULL
return changes nothing, and without live blocks the map is one free
block. -/
theorem heap_of_safe_run {heap : HeapState} (hinit : heapInit heapAddr top = some heap)
    (htop : top < 0x100000000) {ops : List HeapOp}
    (hrun : Run (Guarded growthSafe HeapStep) ⟨heap, [], [], []⟩ ops s) :
    HeapGood heapAddr top s := by
  have hinv : ∃ front, HeapInv heapAddr top front s :=
    hrun.invariant (I := fun s => ∃ front, HeapInv heapAddr top front s)
      (fun _ _ _ ⟨_, hi⟩ ⟨hok, hs⟩ => hi.step hok hs) ⟨_, HeapInv.initial hinit htop⟩
  obtain ⟨front, hi⟩ := hinv
  exact hi.good

/-- A heap of one MiB from which 64 bytes are taken and given back. -/
theorem heap_of_safe_run_oneBlock :
    HeapGood 0x100000 0x200000
      ((HeapSys.afterAlloc ⟨⟨0x100000, 0x1000, [0x101000, 0x200000]⟩, [], [], []⟩ 0x40 0x40).afterFree
        0x1FFFC0) :=
  heap_of_safe_run
    (show heapInit 0x100000 0x200000 = some ⟨0x100000, 0x1000, [0x101000, 0x200000]⟩ by decide)
    (by decide)
    ((Run.single (a := HeapOp.alloc 0x40 0x40)
      ⟨show MapGrowthSafe _ _ _ from Or.inl (by decide), HeapStep.alloc _ 0x40 0x40⟩).snoc
        (a := HeapOp.free 0x1FFFC0) ⟨trivial, HeapStep.free _ _ (.inr (by decide))⟩)

/-! ## The array overruns a block

Blocks of 16 bytes fill the array of a heap of one MiB; the block that is
asked for next is all that is left, and the array grows into it. -/

/-- The entries of `n` blocks of 16 bytes below `top`. -/
def filled (top : Nat) : Nat → List Nat
  | 0 => []
  | n + 1 => (top - 16 * (n + 1) + 1) :: filled top n

/-- The map that has them, with one free block from `base` on. -/
def filledMap (base top n : Nat) : List Nat := base :: filled top n ++ [top]

theorem filled_length (top : Nat) : ∀ n, (filled top n).length = n
  | 0 => rfl
  | n + 1 => by simp [filled, filled_length top n]

theorem filledMap_length (base top n : Nat) : (filledMap base top n).length = n + 2 := by
  simp [filledMap, filled_length]

theorem filled_used {z : Nat} (htop : top % 16 = 0) :
    ∀ {n : Nat}, 16 * n ≤ top → z ∈ filled top n → isUsed z = true := by
  intro n
  induction n with
  | zero => intro _ hz; cases hz
  | succ n ih =>
    intro hn hz
    rcases mem_cons.mp hz with rfl | hz
    · exact isUsed_eq_true.mpr (by omega)
    · exact ih (by omega) hz

theorem findBlock_skip {m : Nat} {used rest : List Nat} (hused : ∀ z ∈ used, isUsed z = true) :
    ∀ k, k ≤ used.length → findBlock (m :: used ++ rest) alignment size (k + 1)
        = findBlock (m :: used ++ rest) alignment size 1 := by
  intro k
  induction k with
  | zero => intro _; rfl
  | succ k ih =>
    intro hk
    have hget : (m :: used ++ rest).getD (k + 1) 0 = used[k] := by
      rw [cons_append, getD_cons_succ, getD_eq_getElem?_getD,
        getElem?_append_left (by omega), getElem?_eq_getElem (by omega)]
      rfl
    rw [findBlock]
    simp only [hget, hused _ (getElem_mem _)]
    exact ih (by omega)

/-- An allocation from such a map takes the top of the free block. -/
theorem findBlock_filled {base : Nat} (size : Nat) (hbase : isUsed base = false)
    (htop : top % 16 = 0) (h16 : size % 16 = 0) (hroom : base + size + 16 * n ≤ top)
    (hpos : 0 < size) :
    findBlock (filledMap base top n) 16 size ((filledMap base top n).length - 1) =
      some (1, top - 16 * n - size) := by
  have hend : clearUsed ((filledMap base top n).getD 1 0) = top - 16 * n := by
    cases n with
    | zero => exact (show clearUsed top = top by unfold clearUsed; omega)
    | succ n =>
      change clearUsed (top - 16 * (n + 1) + 1) = _
      unfold clearUsed
      omega
  rw [filledMap_length, show n + 2 - 1 = n + 1 by omega, filledMap,
    findBlock_skip (fun z hz => filled_used htop (by omega) hz) n (le_of_eq (filled_length top n).symm)]
  change findBlock (filledMap base top n) 16 size 1 = _
  have hfirst : (filledMap base top n).getD 0 0 = base := rfl
  rw [findBlock]
  simp only [hend, hfirst, hbase]
  rw [if_neg (by decide), if_neg (by omega), carve, if_neg (by omega),
    show (top - 16 * n - size) % 16 = 0 by omega]
  simp only [Nat.sub_zero]
  rw [if_pos (by omega)]

/-- The heap after `n` allocations of 16 bytes. -/
def filledHeap (n : Nat) : HeapState := ⟨0x100000, 0x1000, filledMap 0x101000 0x200000 n⟩

theorem filledHeap_find (size : Nat) (h16 : size % 16 = 0) (hpos : 0 < size)
    (hroom : size + 16 * n ≤ 0xFF000) :
    findBlock (filledHeap n).heapMap 16 size ((filledHeap n).heapMap.length - 1) =
      some (1, 0x200000 - 16 * n - size) :=
  findBlock_filled size rfl rfl h16 (by omega) hpos

theorem filledHeap_alloc (hn : n < 1022) :
    heapAlignedAlloc (filledHeap n) 16 16 = (0x200000 - 16 * (n + 1), filledHeap (n + 1)) := by
  have hfind := filledHeap_find (n := n) 16 rfl (by decide) (by omega)
  have hext : extendMap (filledHeap n) = some (filledHeap n) := by
    rw [extendMap]
    simp only [show (filledHeap n).heapMap.length = n + 2 from filledMap_length ..,
      show (filledHeap n).heapMapSize = 0x1000 from rfl]
    rw [if_neg (by omega)]
  have haddr : 0x200000 - 16 * n - 16 = 0x200000 - 16 * (n + 1) := by omega
  rw [heapAlignedAlloc, if_neg (by decide), if_neg (by decide), if_neg (by decide),
    show effectiveAlignment 16 = 16 from rfl, hfind, haddr]
  simp only [hext]
  rw [if_neg (by omega)]
  have hfirst : (filledHeap n).heapMap.getD (1 - 1) 0 = 0x101000 := rfl
  rw [hfirst, if_pos (by omega), setUsed_of_dvd (by omega)]
  rfl

theorem filledHeap_run : n ≤ 1022 → ∃ live returned,
    Run HeapStep ⟨filledHeap 0, [], [], []⟩ (replicate n (.alloc 16 16))
      ⟨filledHeap n, live, [], returned⟩ := by
  induction n with
  | zero => exact fun _ => ⟨[], [], Run.nil _⟩
  | succ n ih =>
    intro hn
    obtain ⟨live, returned, hrun⟩ := ih (by omega)
    have hstep := HeapStep.alloc ⟨filledHeap n, live, [], returned⟩ 16 16
    rw [HeapSys.afterAlloc] at hstep
    simp only [filledHeap_alloc (n := n) (by omega)] at hstep
    rw [if_neg (by omega)] at hstep
    rw [replicate_succ']
    exact ⟨_, _, hrun.snoc hstep⟩

theorem filledHeap_extend (hn : n + 1 = 1022) :
    ∃ heap, extendMap (filledHeap (n + 1)) = some heap ∧
      heap.heapMapAddr = 0x100000 ∧ heap.heapMapSize = 0x2000 := by
  have hlen : (filledHeap (n + 1)).heapMap.length = n + 3 := filledMap_length ..
  have hfirst : (filledHeap (n + 1)).heapMap.getD 0 0 = 0x101000 := rfl
  have hsecond : (filledHeap (n + 1)).heapMap.getD 1 0 = 0x200000 - 16 * (n + 1) + 1 := rfl
  have hsub : ¬ sub32 (0x200000 - 16 * (n + 1) + 1) 0x101000 < 0x2000 := by
    unfold sub32
    omega
  rw [extendMap]
  simp only [hlen, hfirst, hsecond, show (filledHeap (n + 1)).heapMapSize = 0x1000 from rfl]
  rw [if_pos (by omega),
    if_neg (show ¬ 4 * (n + 3) > 0x1000 by omega), if_neg (by decide), if_neg hsub]
  exact ⟨_, rfl, rfl, rfl⟩

/-- The last block is chosen first; then the array takes its first page. -/
theorem filledHeap_overrun (hn : n + 1 = 1022) {live : List HeapBlock} {returned : List Nat} :
    ¬ HeapGood 0x100000 0x200000
      (HeapSys.afterAlloc ⟨filledHeap (n + 1), live, [], returned⟩ 16 0xFB020) := by
  intro hgood
  have hfind := filledHeap_find (n := n + 1) 0xFB020 rfl (by decide) (by omega)
  rw [show 0x200000 - 16 * (n + 1) - 0xFB020 = 0x101000 by omega] at hfind
  obtain ⟨heap, hext, haddr, hsize⟩ := filledHeap_extend hn
  have halloc : heapAlignedAlloc (filledHeap (n + 1)) 16 0xFB020 =
      (0x101000, { heap with heapMap := heap.heapMap.set 0 (setUsed 0x101000) }) := by
    rw [heapAlignedAlloc, if_neg (by decide), if_neg (by decide), if_neg (by decide),
      show effectiveAlignment 16 = 16 from rfl, hfind]
    simp only [hext]
    rfl
  have hafter : HeapSys.afterAlloc ⟨filledHeap (n + 1), live, [], returned⟩ 16 0xFB020 =
      ⟨{ heap with heapMap := heap.heapMap.set 0 (setUsed 0x101000) },
        ⟨0x101000, 0xFB020, 16⟩ :: live, [], 0x101000 :: returned⟩ := by
    rw [HeapSys.afterAlloc, halloc]
    rfl
  rw [hafter] at hgood
  have hapart := hgood.map_disjoint (0x101000, 0x101000 + 0xFB020) (by simp [HeapSys.ranges])
  simp only [Apart] at hapart
  omega

/-- **The overrun.** After 1022 allocations of 16 bytes the array is
full; the next allocation takes all that is left and answers with an
address in the page the array has just grown by. -/
theorem heap_map_overrun :
    ∃ heap s, heapInit 0x100000 0x200000 = some heap ∧ Run HeapStep ⟨heap, [], [], []⟩
        (replicate 1022 (.alloc 16 16) ++ [.alloc 16 0xFB020]) s ∧
      ¬ HeapGood 0x100000 0x200000 s := by
  obtain ⟨n, hn⟩ : ∃ n, n + 1 = 1022 := ⟨1021, rfl⟩
  obtain ⟨live, returned, hrun⟩ := filledHeap_run (n := n + 1) (by omega)
  rw [← hn]
  exact ⟨filledHeap 0, _, by decide, hrun.snoc (HeapStep.alloc _ 16 0xFB020),
    filledHeap_overrun hn⟩

end Dancy.Heap
