import Mathlib.Data.List.Basic

/-!
# The heap map (`heap.c`)

`heap_map` is an increasing array of block starts; the last entry is the
end of the heap. Bit `0` of an entry (`used_bit`) marks the block that
starts there as allocated, and a block ends where the next one starts.
The array lies in the heap itself, in the pages just below the first
block. `heapMap` holds the `heap_map_entries` entries in use.
-/

namespace Dancy.Heap

open List

/-- The static variables of `heap.c`. -/
structure HeapState where
  (heapMapAddr heapMapSize : Nat)
  heapMap : List Nat
  deriving DecidableEq

/-- `b & used_bit`. -/
def isUsed (b : Nat) : Bool := b % 2 == 1

/-- `b & ~used_bit`. -/
def clearUsed (b : Nat) : Nat := b - b % 2

/-- `b | used_bit`. -/
def setUsed (b : Nat) : Nat := b - b % 2 + 1

/-- Truncation to `uint32_t`. -/
def u32 (n : Nat) : Nat := n % 0x100000000

/-- Subtraction of two `uint32_t` values. -/
def sub32 (a b : Nat) : Nat := (a + 0x100000000 - b) % 0x100000000

/-- The checks and the first map of `heap_init`. -/
def heapInit (heapAddr stackArrayAddr : Nat) : Option HeapState :=
  let heapSize := stackArrayAddr - heapAddr
  if heapSize < 0x100000 then none
  else if heapSize > 0x10000000 then none
  else if heapSize % 0x1000 ≠ 0 ∨ heapAddr % 0x1000 ≠ 0 then none
  else some ⟨heapAddr, 0x1000, [u32 (heapAddr + 0x1000), u32 stackArrayAddr]⟩

/-- Whether the search takes the free block `b .. e`, and at which
address: the highest aligned one. -/
def carve (b e alignment size : Nat) : Option Nat :=
  if size > e - b then none
  else
    let remainder := (e - size) % alignment
    if size + remainder ≤ e - b then some (e - size - remainder) else none

/-- The search loop of `heap_aligned_alloc`, from entry `i` down to
entry `1`; it returns `i` and `addr`. An empty block ends the search. -/
def findBlock (map : List Nat) (alignment size : Nat) : Nat → Option (Nat × Nat)
  | 0 => none
  | i + 1 =>
    let b := map.getD i 0
    if isUsed b then findBlock map alignment size i
    else
      let e := clearUsed (map.getD (i + 1) 0)
      if b ≥ e then none
      else
        match carve b e alignment size with
        | none => findBlock map alignment size i
        | some addr => some (i + 1, addr)

/-- The map extension of `heap_aligned_alloc`, when the array is full:
the array takes one more page from the first block. `none` is the NULL
return. -/
def extendMap (s : HeapState) : Option HeapState :=
  let mapUsed := 4 * s.heapMap.length
  if mapUsed ≥ s.heapMapSize then
    if mapUsed > s.heapMapSize then none
    else if isUsed (s.heapMap.getD 0 0) then none
    else if sub32 (s.heapMap.getD 1 0) (s.heapMap.getD 0 0) < 0x2000 then none
    else
      let heapMapSize := s.heapMapSize + 0x1000
      some
        { s with
          heapMapSize := heapMapSize
          heapMap := s.heapMap.set 0 (u32 (s.heapMapAddr + heapMapSize)) }
  else some s

def effectiveAlignment (alignment : Nat) : Nat :=
  if alignment < 0x10 then 0x10 else alignment

/-- `heap_aligned_alloc`; `0` is the NULL return. -/
def heapAlignedAlloc (s : HeapState) (alignment size : Nat) : Nat × HeapState :=
  if alignment = 0 ∨ alignment > 0x2000 then (0, s)
  else if alignment &&& (alignment - 1) ≠ 0 then (0, s)
  else if size = 0 ∨ size > 0x10000000 then (0, s)
  else
    match findBlock s.heapMap (effectiveAlignment alignment) size
        (s.heapMap.length - 1) with
    | none => (0, s)
    | some (i, addr) =>
      if addr = 0 then (0, s)
      else
        -- `addr != b`, with the entry as the search saw it
        let mapInsert := addr ≠ s.heapMap.getD (i - 1) 0
        match extendMap s with
        | none => (0, s)
        | some s' =>
          if mapInsert then
            (addr, { s' with heapMap := s'.heapMap.insertIdx i (setUsed addr) })
          else
            (addr, { s' with heapMap := s'.heapMap.set (i - 1) (setUsed addr) })

/-- The first loop of `heap_free`: clear the used bit of the first entry
equal to `a`. The last entry is not looked at. -/
def clearEntry (a : Nat) : List Nat → List Nat
  | b :: x :: rest =>
    if a = b then clearUsed b :: x :: rest else b :: clearEntry a (x :: rest)
  | l => l

/-- The second loop of `heap_free`: an entry after a free one is removed
when it is free itself. `b` is the entry before the rest of the list;
the last entry stays. -/
def mergeFrom (b : Nat) : List Nat → List Nat
  | [] => [b]
  | [x] => [b, x]
  | e :: x :: rest =>
    if isUsed b || isUsed e then b :: mergeFrom e (x :: rest)
    else mergeFrom b (x :: rest)

def mergeFree : List Nat → List Nat
  | [] => []
  | b :: rest => mergeFrom b rest

/-- `free`, which ignores NULL, around `heap_free`. -/
def heapFree (s : HeapState) (ptr : Nat) : HeapState :=
  if ptr = 0 then s
  else { s with heapMap := mergeFree (clearEntry (setUsed (u32 ptr)) s.heapMap) }

/-- `heap_alloc_static_page`: the array moves up by one page and the page
it leaves is the caller's; `0` is the NULL return. -/
def heapAllocStaticPage (s : HeapState) : Nat × HeapState :=
  if isUsed (s.heapMap.getD 0 0) then (0, s)
  else if sub32 (s.heapMap.getD 1 0) (s.heapMap.getD 0 0) < 0x2000 then (0, s)
  else
    let heapMapAddr := s.heapMapAddr + 0x1000
    (s.heapMapAddr, { s with
        heapMapAddr := heapMapAddr
        heapMap := s.heapMap.set 0 (u32 (heapMapAddr + s.heapMapSize)) })

variable {b top : Nat}

theorem isUsed_eq_true : isUsed b = true ↔ b % 2 = 1 := by
  simp [isUsed]

theorem isUsed_eq_false : isUsed b = false ↔ b % 2 = 0 := by
  rw [← Bool.not_eq_true, isUsed_eq_true]
  omega

/-- An entry is a multiple of `16`, with or without the used bit. -/
def IsEntry (b : Nat) : Prop := b % 16 = 0 ∨ b % 16 = 1

theorem IsEntry.clear_dvd (h : IsEntry b) : clearUsed b % 16 = 0 := by
  unfold clearUsed
  rcases h with h | h <;> omega

theorem carve_some {e alignment size addr : Nat} (hbe : b < e)
    (h : carve b e alignment size = some addr) :
    b ≤ addr ∧ addr + size ≤ e ∧ alignment ∣ addr := by
  unfold carve at h
  split at h
  · cases h
  simp only at h
  split at h
  · cases h
    refine ⟨by omega, by omega, ?_⟩
    exact Nat.dvd_sub_mod (e - size)
  · cases h

/-- The entry after a block: the first of the entries that follow. -/
def blockEnd (rest : List Nat) (top : Nat) : Nat := (rest ++ [top]).headD 0

theorem blockEnd_mem (rest : List Nat) (top : Nat) : blockEnd rest top ∈ rest ++ [top] := by
  cases rest <;> simp [blockEnd]

/-- The block that starts at entry `k` serves a request. -/
def Serves (map : List Nat) (alignment size k : Nat) : Prop :=
  isUsed (map.getD k 0) = false ∧ map.getD k 0 < clearUsed (map.getD (k + 1) 0) ∧
    (carve (map.getD k 0) (clearUsed (map.getD (k + 1) 0)) alignment size).isSome = true

theorem findBlock_some {map : List Nat} {alignment size i addr : Nat} :
    ∀ {n : Nat}, findBlock map alignment size n = some (i, addr) →
      0 < i ∧ i ≤ n ∧ isUsed (map.getD (i - 1) 0) = false ∧
        map.getD (i - 1) 0 < clearUsed (map.getD i 0) ∧
        carve (map.getD (i - 1) 0) (clearUsed (map.getD i 0)) alignment size = some addr ∧
        ∀ k, i ≤ k → k < n → ¬ Serves map alignment size k := by
  intro n
  induction n with
  | zero => intro h; cases h
  | succ n ih =>
    intro h
    rw [findBlock] at h
    -- a round that goes on to the next lower block
    have hskip : ¬ Serves map alignment size n → findBlock map alignment size n = some (i, addr) →
        0 < i ∧ i ≤ n + 1 ∧ isUsed (map.getD (i - 1) 0) = false ∧
          map.getD (i - 1) 0 < clearUsed (map.getD i 0) ∧
          carve (map.getD (i - 1) 0) (clearUsed (map.getD i 0)) alignment size = some addr ∧
          ∀ k, i ≤ k → k < n + 1 → ¬ Serves map alignment size k := by
      intro hno hrec
      obtain ⟨h1, h2, h3, h4, h5, h6⟩ := ih hrec
      refine ⟨h1, by omega, h3, h4, h5, fun k hk1 hk2 => ?_⟩
      rcases Nat.eq_or_lt_of_le (Nat.le_of_lt_succ hk2) with rfl | hlt
      · exact hno
      · exact h6 k hk1 hlt
    cases hused : isUsed (map.getD n 0) with
    | true =>
      simp only [hused] at h
      refine hskip (fun hs => ?_) h
      have hfree := hs.1
      rw [hused] at hfree
      cases hfree
    | false =>
      simp only [hused, Bool.false_eq_true, if_false] at h
      split at h
      · cases h
      cases hcarve : carve (map.getD n 0) (clearUsed (map.getD (n + 1) 0))
          alignment size with
      | none =>
        simp only [hcarve] at h
        refine hskip (fun hs => ?_) h
        have hsome := hs.2.2
        rw [hcarve] at hsome
        cases hsome
      | some addr' =>
        simp only [hcarve] at h
        obtain ⟨rfl, rfl⟩ := h
        rw [Nat.add_sub_cancel]
        exact ⟨by omega, (Nat.le_refl _), hused, by omega, hcarve, fun k h1 h2 => by omega⟩

/-- The entry number `k` of an array that ends with `top`, with what
stands around it. -/
theorem split_front {front : List Nat} (top : Nat) {k : Nat} (hk : k < front.length) :
    ∃ l₁ l₂, front = l₁ ++ (front ++ [top]).getD k 0 :: l₂ ∧ l₁.length = k ∧
      (front ++ [top]).getD (k + 1) 0 = blockEnd l₂ top := by
  refine ⟨front.take k, front.drop (k + 1), ?_, by simp; omega, ?_⟩
  · have hget : (front ++ [top]).getD k 0 = front[k] := by
      rw [getD_eq_getElem?_getD, getElem?_append_left hk, getElem?_eq_getElem hk]
      rfl
    rw [hget, ← drop_eq_getElem_cons hk, take_append_drop]
  rw [blockEnd, getD_eq_getElem?_getD]
  rcases Nat.lt_or_ge (k + 1) front.length with hlt | hge
  · rw [getElem?_append_left hlt, drop_eq_getElem_cons hlt]
    simp [getElem?_eq_getElem hlt]
  · rw [drop_eq_nil_of_le hge, show k + 1 = front.length by omega]
    simp

/-! ## Freeing -/

theorem clearEntry_of_not_mem {a : Nat} :
    ∀ {front : List Nat}, a ∉ front → clearEntry a (front ++ [top]) = front ++ [top] := by
  intro front
  induction front with
  | nil => intro _; rfl
  | cons b front ih =>
    intro h
    rw [mem_cons, not_or] at h
    have hrec := ih h.2
    cases hf : front ++ [top] with
    | nil => simp at hf
    | cons x rest =>
      rw [hf] at hrec
      rw [cons_append, hf, clearEntry, if_neg h.1, hrec]

theorem clearEntry_of_split {a : Nat} {l₂ : List Nat} :
    ∀ {l₁ : List Nat}, a ∉ l₁ →
      clearEntry a (l₁ ++ a :: l₂ ++ [top]) = l₁ ++ clearUsed a :: l₂ ++ [top] := by
  intro l₁
  induction l₁ with
  | nil =>
    cases hl : l₂ ++ [top] with
    | nil => simp at hl
    | cons x rest => simp [hl, clearEntry]
  | cons b l₁ ih =>
    intro h
    rw [mem_cons, not_or] at h
    have hrec := ih h.2
    cases hf : l₁ ++ a :: l₂ ++ [top] with
    | nil => simp at hf
    | cons x rest =>
      rw [hf] at hrec
      simp only [cons_append, hf]
      rw [clearEntry, if_neg h.1, hrec]

theorem mergeFrom_cons {e : Nat} {l : List Nat} (h : l ≠ []) :
    mergeFrom b (e :: l)
      = if isUsed b || isUsed e then b :: mergeFrom e l else mergeFrom b l := by
  cases l with
  | nil => exact absurd rfl h
  | cons x rest => rfl

/-- Increasing, except that free entries may repeat: the array between
the two loops of `heap_free`. -/
def Weak (x y : Nat) : Prop := x < y ∨ (x = y ∧ isUsed x = false)

theorem Weak.le {x y : Nat} (h : Weak x y) : x ≤ y := by
  rcases h with h | ⟨h, -⟩ <;> omega

/-- Between two free blocks there is a used one. -/
def Separated (front : List Nat) : Prop :=
  ∀ x ∈ front, ∀ y ∈ front, x < y → isUsed x = false → isUsed y = false →
    ∃ z ∈ front, isUsed z = true ∧ x < z ∧ z < y

/-- What merging does to an array `b :: front ++ [top]`: it keeps the
first entry, the used ones and the last one, drops some free ones, and
leaves the free ones separated. -/
theorem mergeFrom_spec (top : Nat) :
    ∀ (front : List Nat) (b : Nat), (b :: front).Pairwise Weak →
      ∃ front', mergeFrom b (front ++ [top]) = b :: front' ++ [top] ∧ List.Sublist front' front ∧
        (∀ z ∈ front, isUsed z = true → z ∈ front') ∧
        (b :: front').Pairwise (· < ·) ∧ Separated (b :: front') := by
  intro front
  induction front with
  | nil =>
    intro b _
    refine ⟨[], rfl, List.Sublist.refl _, by simp, by simp, ?_⟩
    intro x hx y hy hlt
    simp at hx hy
    omega
  | cons e front ih =>
    intro b hweak
    obtain ⟨hb, hrest⟩ := pairwise_cons.mp hweak
    have hbe := hb e (by simp)
    rw [cons_append, mergeFrom_cons (by simp)]
    cases hu : isUsed b || isUsed e with
    | true =>
      obtain ⟨front', heq, hsub, hkeep, hsort, hsep⟩ := ih e hrest
      refine ⟨e :: front', by rw [heq]; rfl, hsub.cons_cons e, ?_, ?_, ?_⟩
      · intro z hz huz
        rcases mem_cons.mp hz with rfl | hz
        · simp
        · exact .tail _ (hkeep z hz huz)
      · -- `b` or `e` is used, so they are different
        have hlt : b < e := by
          rcases hbe with h | ⟨rfl, hfree⟩
          · exact h
          · simp [hfree] at hu
        refine pairwise_cons.mpr ⟨fun z hz => ?_, hsort⟩
        rcases mem_cons.mp hz with rfl | hz
        · exact hlt
        · exact Nat.lt_trans hlt ((pairwise_cons.mp hsort).1 z hz)
      · intro x hx y hy hxy hfx hfy
        have hby : ∀ z ∈ e :: front', b ≤ z := by
          intro z hz
          rcases mem_cons.mp hz with rfl | hz'
          · exact hbe.le
          · exact (hb z (.tail _ (hsub.subset hz'))).le
        have hy' : y ∈ e :: front' := by
          rcases mem_cons.mp hy with rfl | h
          · rcases mem_cons.mp hx with rfl | h
            · omega
            · have := hby x h
              omega
          · exact h
        rcases mem_cons.mp hx with hxb | hx'
        · -- `b` is free, so `e` is the used entry in between
          have hue : isUsed e = true := by simpa [← hxb, hfx] using hu
          rcases mem_cons.mp hy' with hye | hy''
          · rw [hye, hue] at hfy; cases hfy
          · refine ⟨e, by simp, hue, ?_, (pairwise_cons.mp hsort).1 y hy''⟩
            rcases hbe with h | ⟨h, hfree⟩
            · omega
            · rw [← h, ← hxb, hfx] at hue; cases hue
        · obtain ⟨z, hz, hz'⟩ := hsep x hx' y hy' hxy hfx hfy
          exact ⟨z, mem_cons_of_mem _ hz, hz'⟩
    | false =>
      rw [Bool.or_eq_false_iff] at hu
      have hweak' : (b :: front).Pairwise Weak :=
        pairwise_cons.mpr ⟨fun z hz => hb z (.tail _ hz), (pairwise_cons.mp hrest).2⟩
      obtain ⟨front', heq, hsub, hkeep, hsort, hsep⟩ := ih b hweak'
      refine ⟨front', heq, hsub.cons e, ?_, hsort, hsep⟩
      intro z hz huz
      rcases mem_cons.mp hz with rfl | hz
      · rw [hu.2] at huz; cases huz
      · exact hkeep z hz huz

theorem mergeFrom_of_separated :
    ∀ (front : List Nat) (b : Nat), (b :: front).Pairwise (· < ·) →
      Separated (b :: front) → mergeFrom b (front ++ [top]) = b :: front ++ [top] := by
  intro front
  induction front with
  | nil => intro b _ _; rfl
  | cons e front ih =>
    intro b hsort hsep
    obtain ⟨hb, hrest⟩ := pairwise_cons.mp hsort
    -- a used entry between neighbours would break the order
    have hne : (isUsed b || isUsed e) = true := by
      by_contra hfree
      rw [Bool.not_eq_true, Bool.or_eq_false_iff] at hfree
      obtain ⟨z, hz, -, h1, h2⟩ := hsep b (by simp) e (by simp) (hb e (by simp))
        hfree.1 hfree.2
      rcases mem_cons.mp hz with rfl | hz
      · omega
      · rcases mem_cons.mp hz with rfl | hz
        · omega
        · have := (pairwise_cons.mp hrest).1 z hz
          omega
    have hsep' : Separated (e :: front) := by
      intro x hx y hy hxy hfx hfy
      obtain ⟨z, hz, hz'⟩ := hsep x (.tail _ hx) y
        (.tail _ hy) hxy hfx hfy
      rcases mem_cons.mp hz with rfl | hz
      · have := hb x hx
        omega
      · exact ⟨z, hz, hz'⟩
    rw [cons_append, mergeFrom_cons (by simp), if_pos hne, ih e hrest hsep']
    rfl

/-! ## The map and the live blocks -/

/-- A pointer the caller holds, with the request it answered. -/
structure HeapBlock where
  (addr size alignment : Nat)
  deriving DecidableEq

/-- `front ++ [top]` is the map and `live` the blocks in use. -/
structure MapInv (top : Nat) (front : List Nat) (live : List HeapBlock) : Prop where
  top_entry : top % 16 = 0
  entries : ∀ z ∈ front, IsEntry z
  sorted : (front ++ [top]).Pairwise (· < ·)
  separated : Separated front
  live_entry : ∀ blk ∈ live, blk.addr + 1 ∈ front
  live_fits : ∀ blk ∈ live, ∀ z ∈ front ++ [top], blk.addr + 1 < z →
    blk.addr + blk.size ≤ clearUsed z
  used_live : ∀ z ∈ front, isUsed z = true → ∃ blk ∈ live, blk.addr + 1 = z
  live_nodup : (live.map (·.addr)).Nodup
  live_ok : ∀ blk ∈ live, 0 < blk.size ∧ blk.addr % 16 = 0 ∧ blk.alignment ∣ blk.addr

variable {front l₁ l₂ : List Nat} {live : List HeapBlock}

section

variable (h : MapInv top front live)
include h

theorem MapInv.front_lt_top {z : Nat} (hz : z ∈ front) : z < top :=
  (pairwise_append.mp h.sorted).2.2 z hz top (by simp)

theorem MapInv.front_sorted : front.Pairwise (· < ·) :=
  (pairwise_append.mp h.sorted).1

theorem MapInv.isEntry {z : Nat} (hz : z ∈ front ++ [top]) : IsEntry z := by
  rcases mem_append.mp hz with hz | hz
  · exact h.entries z hz
  · rw [mem_singleton] at hz
    exact hz ▸ .inl h.top_entry

end

theorem clearUsed_le (z : Nat) : clearUsed z ≤ z := Nat.sub_le _ _

theorem clearUsed_mono {x y : Nat} (h : x ≤ y) (hx : IsEntry x) (hy : IsEntry y) :
    clearUsed x ≤ clearUsed y := by
  unfold clearUsed
  rcases hx with hx | hx <;> rcases hy with hy | hy <;> omega

theorem clearUsed_of_free {b : Nat} (h : isUsed b = false) : clearUsed b = b := by
  rw [isUsed_eq_false] at h
  rw [clearUsed, h]
  rfl

theorem setUsed_of_dvd {addr : Nat} (h : addr % 16 = 0) : setUsed addr = addr + 1 := by
  unfold setUsed
  omega

theorem isUsed_succ {addr : Nat} (h : addr % 16 = 0) : isUsed (addr + 1) = true := by
  rw [isUsed_eq_true]
  omega

theorem sorted_split {b : Nat} (h : (l₁ ++ b :: l₂ ++ [top]).Pairwise (· < ·)) :
    (∀ z ∈ l₁, z < b) ∧ ∀ z ∈ l₂ ++ [top], b < z ∧ blockEnd l₂ top ≤ z := by
  rw [append_assoc, pairwise_append] at h
  obtain ⟨-, h2, h3⟩ := h
  refine ⟨fun z hz => h3 z hz b (by simp), fun z hz => ⟨?_, ?_⟩⟩
  · exact (pairwise_cons.mp h2).1 z hz
  have hs := (pairwise_cons.mp h2).2
  cases l₂ with
  | nil =>
    simp only [nil_append, mem_singleton] at hz
    rw [hz]
    exact (Nat.le_refl _)
  | cons y l₂ =>
    rw [cons_append, mem_cons] at hz
    rcases hz with rfl | hz
    · exact (Nat.le_refl _)
    · exact Nat.le_of_lt ((pairwise_cons.mp hs).1 z hz)

theorem sorted_head {b : Nat} (h : (b :: l₂ ++ [top]).Pairwise (· < ·)) :
    ∀ z ∈ l₂ ++ [top], b < z ∧ blockEnd l₂ top ≤ z :=
  (@sorted_split top [] l₂ b h).2

section Carved

variable {b addr size alignment : Nat}

/-- What is known of an address carved out of the free block at `b`. -/
structure Carved (top b : Nat) (l₂ : List Nat)
    (addr size alignment : Nat) : Prop where
  free : isUsed b = false
  le : b ≤ addr
  fits : addr + size ≤ clearUsed (blockEnd l₂ top)
  pos : 0 < size
  aligned16 : addr % 16 = 0
  aligned : alignment ∣ addr

section

variable (hc : Carved top b l₂ addr size alignment) (h : MapInv top (l₁ ++ b :: l₂) live)
include hc h

theorem Carved.lt_end {z : Nat} (hz : z ∈ l₂ ++ [top]) :
    addr + 1 < z ∧ addr + size ≤ clearUsed z := by
  have hmem : ∀ z ∈ l₂ ++ [top], z ∈ l₁ ++ b :: l₂ ++ [top] := by
    simp only [mem_append] at hz ⊢
    tauto
  have hend := h.isEntry (hmem _ (blockEnd_mem l₂ top))
  have hle := ((sorted_split h.sorted).2 z hz).2
  have hmono := clearUsed_mono hle hend (h.isEntry (hmem z hz))
  have := hend.clear_dvd
  have := hc.fits
  have := hc.pos
  have := hc.aligned16
  have := clearUsed_le (blockEnd l₂ top)
  omega

/-- A live block other than the carved one starts below `b` or above the
carved one. -/
theorem Carved.other {blk : HeapBlock} (hblk : blk ∈ live) :
    blk.addr + blk.size ≤ b ∨ addr + 1 < blk.addr + 1 := by
  have hentry := h.live_entry blk hblk
  have hodd := isUsed_succ (h.live_ok blk hblk).2.1
  rw [mem_append, mem_cons] at hentry
  rcases hentry with h1 | h1 | h1
  · have hlt := (sorted_split h.sorted).1 _ h1
    have hfit := h.live_fits blk hblk b (by simp) hlt
    rw [clearUsed_of_free hc.free] at hfit
    exact .inl hfit
  · rw [h1, hc.free] at hodd
    cases hodd
  · exact .inr (hc.lt_end h (mem_append_left _ h1)).1

theorem Carved.live_add : ((⟨addr, size, alignment⟩ :: live).map (·.addr)).Nodup := by
  rw [map_cons, nodup_cons]
  refine ⟨fun hmem => ?_, h.live_nodup⟩
  obtain ⟨blk, hblk, heq⟩ := mem_map.mp hmem
  have hsize := (h.live_ok blk hblk).1
  have hle := hc.le
  simp only at heq
  rcases hc.other h hblk with h1 | h1 <;> omega

end

theorem MapInv.insert (h : MapInv top (l₁ ++ b :: l₂) live)
    (hc : Carved top b l₂ addr size alignment) :
    MapInv top (l₁ ++ b :: (addr + 1) :: l₂) (⟨addr, size, alignment⟩ :: live) := by
  obtain ⟨hlow, hhigh⟩ := sorted_split h.sorted
  have hle := hc.le
  have hmem : ∀ z, z ∈ l₁ ++ b :: (addr + 1) :: l₂ ↔ z = addr + 1 ∨ z ∈ l₁ ++ b :: l₂ := by
    simp only [mem_append, mem_cons]
    tauto
  have hmem' : ∀ z, z ∈ l₁ ++ b :: (addr + 1) :: l₂ ++ [top] ↔
      z = addr + 1 ∨ z ∈ l₁ ++ b :: l₂ ++ [top] := by
    simp only [mem_append, mem_cons]
    tauto
  have hused := isUsed_succ hc.aligned16
  refine ⟨h.top_entry, ?_, ?_, ?_, ?_, ?_, ?_, hc.live_add h, ?_⟩
  · intro z hz
    rcases (hmem z).mp hz with rfl | hz
    · have := hc.aligned16
      exact .inr (by omega)
    · exact h.entries z hz
  · -- `b ≤ addr < addr + 1 < ` everything that follows
    have hs := h.sorted
    rw [append_assoc, pairwise_append] at hs ⊢
    obtain ⟨hs1, hs2, hs3⟩ := hs
    obtain ⟨hb, hs4⟩ := pairwise_cons.mp hs2
    refine ⟨hs1, pairwise_cons.mpr ⟨fun z hz => ?_, pairwise_cons.mpr
      ⟨fun z hz => (hc.lt_end h hz).1, hs4⟩⟩, fun x hx z hz => ?_⟩
    · rcases mem_cons.mp hz with rfl | hz
      · omega
      · exact hb z hz
    rcases mem_cons.mp hz with rfl | hz
    · exact hs3 x hx z (by simp)
    · rcases mem_cons.mp hz with rfl | hz
      · have := hlow x hx
        omega
      · exact hs3 x hx z (.tail _ hz)
  · intro x hx y hy hxy hfx hfy
    have hold : ∀ w, w ∈ l₁ ++ b :: (addr + 1) :: l₂ → isUsed w = false → w ∈ l₁ ++ b :: l₂ := by
      intro w hw hfw
      rcases (hmem w).mp hw with rfl | hw
      · rw [hused] at hfw; cases hfw
      · exact hw
    obtain ⟨z, hz, hz'⟩ := h.separated x (hold x hx hfx) y (hold y hy hfy) hxy hfx hfy
    exact ⟨z, (hmem z).mpr (.inr hz), hz'⟩
  · intro blk hblk
    rcases mem_cons.mp hblk with rfl | hblk
    · simp
    · exact (hmem _).mpr (.inr (h.live_entry blk hblk))
  · intro blk hblk z hz hlt
    rcases mem_cons.mp hblk with rfl | hblk
    · simp only at hlt ⊢
      rcases (hmem' z).mp hz with rfl | hz
      · omega
      rw [append_assoc, mem_append, cons_append, mem_cons] at hz
      rcases hz with hz | rfl | hz
      · have := hlow z hz
        omega
      · omega
      · exact (hc.lt_end h hz).2
    · rcases (hmem' z).mp hz with rfl | hz
      · have hclear : clearUsed (addr + 1) = addr := by
          have := hc.aligned16
          unfold clearUsed
          omega
        rcases hc.other h hblk with h1 | h1 <;> omega
      · exact h.live_fits blk hblk z hz hlt
  · intro z hz huz
    rcases (hmem z).mp hz with rfl | hz
    · simp
    · obtain ⟨blk, hblk, heq⟩ := h.used_live z hz huz
      exact ⟨blk, mem_cons_of_mem _ hblk, heq⟩
  · intro blk hblk
    rcases mem_cons.mp hblk with rfl | hblk
    · exact ⟨hc.pos, hc.aligned16, hc.aligned⟩
    · exact h.live_ok blk hblk

/-- A free block that is used whole: its entry goes away once the used
one stands after it. -/
theorem MapInv.replace (h : MapInv top (l₁ ++ b :: l₂) live)
    (hc : Carved top b l₂ b size alignment) :
    MapInv top (l₁ ++ (b + 1) :: l₂) (⟨b, size, alignment⟩ :: live) := by
  have hi := h.insert hc
  have hsub : List.Sublist (l₁ ++ (b + 1) :: l₂) (l₁ ++ b :: (b + 1) :: l₂) :=
    List.Sublist.append_left (sublist_cons_self b _) l₁
  have hkeep : ∀ z ∈ l₁ ++ b :: (b + 1) :: l₂, isUsed z = true → z ∈ l₁ ++ (b + 1) :: l₂ := by
    intro z hz huz
    rw [mem_append, mem_cons] at hz
    rcases hz with hz | rfl | hz
    · exact mem_append_left _ hz
    · rw [hc.free] at huz; cases huz
    · exact mem_append_right _ hz
  refine ⟨hi.top_entry, fun z hz => hi.entries z (hsub.subset hz),
    hi.sorted.sublist (hsub.append_right [top]), ?_, ?_, ?_, ?_, hi.live_nodup, hi.live_ok⟩
  · intro x hx y hy hxy hfx hfy
    obtain ⟨z, hz, huz, hz'⟩ := hi.separated x (hsub.subset hx) y (hsub.subset hy) hxy hfx hfy
    exact ⟨z, hkeep z hz huz, huz, hz'⟩
  · intro blk hblk
    exact hkeep _ (hi.live_entry blk hblk) (isUsed_succ (hi.live_ok blk hblk).2.1)
  · intro blk hblk z hz hlt
    exact hi.live_fits blk hblk z ((hsub.append_right [top]).subset hz) hlt
  · intro z hz huz
    exact hi.used_live z (hsub.subset hz) huz

end Carved

/-- The first entry moves up by a page, when the first block is free and
larger than that. -/
theorem MapInv.raiseFirst {m rest} (h : MapInv top (m :: rest) live)
    (hfree : isUsed m = false) (hroom : m + 0x2000 ≤ blockEnd rest top) :
    MapInv top ((m + 0x1000) :: rest) live := by
  have hsplit := sorted_head h.sorted
  have hrest : ∀ z ∈ rest ++ [top], m + 0x2000 ≤ z := fun z hz =>
    Nat.le_trans hroom (hsplit z hz).2
  have hfree' : isUsed (m + 0x1000) = false := by
    rw [isUsed_eq_false] at hfree ⊢
    omega
  -- a used entry is not the first one
  have htail : ∀ z ∈ m :: rest, isUsed z = true → z ∈ rest := by
    intro z hz huz
    rcases mem_cons.mp hz with rfl | hz
    · rw [hfree] at huz; cases huz
    · exact hz
  refine ⟨h.top_entry, ?_, ?_, ?_, ?_, ?_, ?_, h.live_nodup, h.live_ok⟩
  · intro z hz
    rcases mem_cons.mp hz with rfl | hz
    · rcases h.entries m (by simp) with hm | hm
      · exact .inl (by omega)
      · exact .inr (by omega)
    · exact h.entries z (.tail _ hz)
  · refine pairwise_cons.mpr ⟨fun z hz => ?_, (pairwise_cons.mp h.sorted).2⟩
    have := hrest z hz
    omega
  · intro x hx y hy hxy hfx hfy
    rcases mem_cons.mp hx with rfl | hx
    · rcases mem_cons.mp hy with rfl | hy
      · omega
      obtain ⟨z, hz, huz, h1, h2⟩ := h.separated m (by simp) y
        (.tail _ hy) (by omega) hfree hfy
      have hz' := htail z hz huz
      have := hrest z (mem_append_left _ hz')
      exact ⟨z, mem_cons_of_mem _ hz', huz, by omega, h2⟩
    · rcases mem_cons.mp hy with rfl | hy
      · have := hrest x (mem_append_left _ hx)
        omega
      · obtain ⟨z, hz, huz, h1, h2⟩ := h.separated x (.tail _ hx) y
          (.tail _ hy) hxy hfx hfy
        exact ⟨z, mem_cons_of_mem _ (htail z hz huz), huz, h1, h2⟩
  · intro blk hblk
    exact .tail _
      (htail _ (h.live_entry blk hblk) (isUsed_succ (h.live_ok blk hblk).2.1))
  · intro blk hblk z hz hlt
    rcases mem_cons.mp hz with rfl | hz
    · have hentry := htail _ (h.live_entry blk hblk) (isUsed_succ (h.live_ok blk hblk).2.1)
      have := hrest _ (mem_append_left _ hentry)
      omega
    · exact h.live_fits blk hblk z (.tail _ hz) hlt
  · intro z hz huz
    rcases mem_cons.mp hz with rfl | hz
    · rw [hfree'] at huz; cases huz
    · exact h.used_live z (.tail _ hz) huz

/-- Clearing the mark of an entry leaves the array increasing, but for a free
entry that may then stand twice. -/
theorem weak_cleared {z : Nat} (hz : isUsed z = false)
    (hs : (l₁ ++ (z + 1) :: l₂).Pairwise (· < ·)) : (l₁ ++ z :: l₂).Pairwise Weak := by
  rw [pairwise_append, pairwise_cons] at hs ⊢
  obtain ⟨hs1, ⟨hs2, hs3⟩, hs4⟩ := hs
  refine ⟨hs1.imp .inl, ⟨fun y hy => .inl ?_, hs3.imp .inl⟩, fun x hx y hy => ?_⟩
  · have := hs2 y hy
    omega
  rcases mem_cons.mp hy with rfl | hy
  · -- an entry below `y + 1` is below `y` or equal to it, and then free
    have hlt := hs4 x hx (y + 1) mem_cons_self
    rcases Nat.lt_or_ge x y with hlt' | hge
    · exact .inl hlt'
    · have hxy : x = y := by omega
      exact .inr ⟨hxy, hxy ▸ hz⟩
  · exact .inl (hs4 x hx y (.tail _ hy))

section

variable (h : MapInv top front live)
include h

theorem MapInv.free_stale {ptr : Nat} (hno : ptr + 1 ∉ front) :
    mergeFree (clearEntry (ptr + 1) (front ++ [top])) = front ++ [top] := by
  rw [clearEntry_of_not_mem hno]
  cases front with
  | nil => rfl
  | cons b front => exact mergeFrom_of_separated front b h.front_sorted h.separated

theorem MapInv.without {ptr : Nat} {front' : List Nat} (hptr : ptr % 16 = 0)
    (hmem : ptr + 1 ∈ front) (hsub : ∀ z ∈ front', z = ptr ∨ z ∈ front ∧ z ≠ ptr + 1)
    (hkeep : ∀ z ∈ front, z ≠ ptr + 1 → isUsed z = true → z ∈ front')
    (hsort : front'.Pairwise (· < ·)) (hsep : Separated front') :
    MapInv top front' (live.filter fun blk => blk.addr ≠ ptr) where
  top_entry := h.top_entry
  entries z hz := by
    rcases hsub z hz with rfl | ⟨hz, -⟩
    · exact .inl hptr
    · exact h.entries z hz
  sorted := by
    rw [pairwise_append]
    refine ⟨hsort, by simp, fun z hz t ht => ?_⟩
    rw [mem_singleton] at ht
    subst ht
    rcases hsub z hz with rfl | ⟨hz, -⟩
    · have := h.front_lt_top hmem
      omega
    · exact h.front_lt_top hz
  separated := hsep
  live_entry blk hblk := by
    obtain ⟨hblk, hne⟩ := mem_filter.mp hblk
    have hne : blk.addr ≠ ptr := by simpa using hne
    exact hkeep _ (h.live_entry blk hblk) (by omega) (isUsed_succ (h.live_ok blk hblk).2.1)
  live_fits blk hblk z hz hlt := by
    have hlive := (mem_filter.mp hblk).1
    rcases mem_append.mp hz with hz | hz
    · rcases hsub z hz with rfl | ⟨hz, -⟩
      · have hfit := h.live_fits blk hlive (z + 1) (mem_append_left _ hmem) (by omega)
        unfold clearUsed at hfit ⊢
        omega
      · exact h.live_fits blk hlive z (mem_append_left _ hz) hlt
    · exact h.live_fits blk hlive z (mem_append_right _ hz) hlt
  used_live z hz huz := by
    rcases hsub z hz with rfl | ⟨hz', hne⟩
    · rw [isUsed_eq_false.mpr (by omega)] at huz
      cases huz
    obtain ⟨blk, hblk, heq⟩ := h.used_live z hz' huz
    refine ⟨blk, mem_filter.mpr ⟨hblk, ?_⟩, heq⟩
    simp only [decide_eq_true_eq]
    omega
  live_nodup := h.live_nodup.sublist (filter_sublist.map _)
  live_ok blk hblk := h.live_ok blk (mem_filter.mp hblk).1

theorem MapInv.free_live {ptr : Nat} (hptr : ptr % 16 = 0) (hmem : ptr + 1 ∈ front) :
    ∃ front', mergeFree (clearEntry (ptr + 1) (front ++ [top])) = front' ++ [top] ∧
      front' ≠ [] ∧ front'.length ≤ front.length ∧
      clearUsed (front'.headD 0) = clearUsed (front.headD 0) ∧
      MapInv top front' (live.filter fun blk => blk.addr ≠ ptr) := by
  obtain ⟨l₁, l₂, rfl⟩ := append_of_mem hmem
  obtain ⟨hlow, hhigh⟩ := sorted_split h.sorted
  have hclear : clearUsed (ptr + 1) = ptr := by
    unfold clearUsed
    omega
  have hfree : isUsed ptr = false := isUsed_eq_false.mpr (by omega)
  have hno : ptr + 1 ∉ l₁ := fun hin => Nat.lt_irrefl _ (hlow _ hin)
  rw [clearEntry_of_split hno, hclear]
  -- the array between the two loops
  have hmid : ∀ z, z ∈ l₁ ++ ptr :: l₂ ↔ z = ptr ∨ z ∈ l₁ ++ (ptr + 1) :: l₂ ∧ z ≠ ptr + 1 := by
    intro z
    have h1 : z ∈ l₁ → z ≠ ptr + 1 := fun hz he => hno (he ▸ hz)
    have h2 : z ∈ l₂ → ptr + 1 < z := fun hz => (hhigh z (mem_append_left _ hz)).1
    simp only [mem_append, mem_cons]
    grind
  have hweak := weak_cleared hfree h.front_sorted
  have hlen : (l₁ ++ ptr :: l₂).length = (l₁ ++ (ptr + 1) :: l₂).length := by simp
  have hhead : clearUsed ((l₁ ++ ptr :: l₂).headD 0) =
      clearUsed ((l₁ ++ (ptr + 1) :: l₂).headD 0) := by
    cases l₁ with
    | nil => exact (clearUsed_of_free hfree).trans hclear.symm
    | cons a l₁ => rfl
  obtain ⟨c, rest, hcons⟩ : ∃ c rest, l₁ ++ ptr :: l₂ = c :: rest := by
    cases l₁ with
    | nil => simp
    | cons c l₁ => exact ⟨c, l₁ ++ ptr :: l₂, rfl⟩
  rw [hcons] at hweak hmid hlen hhead ⊢
  obtain ⟨front', hmerge, hsub, hkeep, hsort, hsep⟩ := mergeFrom_spec top rest c hweak
  have hsub' := hsub.cons_cons c
  refine ⟨c :: front', hmerge, by simp, hlen ▸ hsub'.length_le, hhead,
    h.without hptr hmem (fun z hz => (hmid z).1 (hsub'.subset hz)) (fun z hz hne huz => ?_)
      hsort hsep⟩
  rcases mem_cons.mp ((hmid z).2 (.inr ⟨hz, hne⟩)) with rfl | hz
  · simp
  · exact .tail _ (hkeep z hz huz)

theorem MapInv.disjoint :
    live.Pairwise fun a b => a.addr + a.size ≤ b.addr ∨ b.addr + b.size ≤ a.addr := by
  have hstep : ∀ a ∈ live, ∀ b ∈ live, a.addr < b.addr → a.addr + a.size ≤ b.addr := by
    intro a ha b hb hlt
    have hfit := h.live_fits a ha (b.addr + 1)
      (mem_append_left _ (h.live_entry b hb)) (by omega)
    have := (h.live_ok b hb).2.1
    unfold clearUsed at hfit
    omega
  have hnodup := h.live_nodup
  rw [List.Nodup, pairwise_map] at hnodup
  refine hnodup.imp_of_mem fun {a b} ha hb hne => ?_
  rcases Nat.lt_or_gt_of_ne hne with hlt | hgt
  · exact .inl (hstep a ha b hb hlt)
  · exact .inr (hstep b hb a ha hgt)

theorem MapInv.inside {blk : HeapBlock} (hblk : blk ∈ live) :
    clearUsed (front.headD 0) ≤ blk.addr ∧ blk.addr + blk.size ≤ top := by
  have hmem := h.live_entry blk hblk
  have haligned := (h.live_ok blk hblk).2.1
  constructor
  · cases hf : front with
    | nil => simp [clearUsed]
    | cons m rest =>
      rw [hf] at hmem
      have hm := h.entries m (by simp [hf])
      have hle : m ≤ blk.addr + 1 := by
        rcases mem_cons.mp hmem with heq | hin
        · omega
        · have hs := h.front_sorted
          rw [hf] at hs
          exact Nat.le_of_lt ((pairwise_cons.mp hs).1 _ hin)
      simp only [headD_cons]
      unfold clearUsed
      rcases hm with hm | hm <;> omega
  · have hfit := h.live_fits blk hblk top (by simp) (h.front_lt_top hmem)
    unfold clearUsed at hfit
    omega

end

theorem MapInv.single (h : MapInv top front []) (hne : front ≠ []) :
    ∃ m, front = [m] ∧ isUsed m = false := by
  have hfree : ∀ z ∈ front, isUsed z = false := by
    intro z hz
    by_contra hused
    obtain ⟨blk, hblk, -⟩ := h.used_live z hz (by simpa using hused)
    cases hblk
  cases hf : front with
  | nil => exact absurd hf hne
  | cons m rest =>
    rw [hf] at hfree
    refine ⟨m, ?_, hfree m (by simp)⟩
    cases rest with
    | nil => rfl
    | cons y rest =>
      have hs := h.front_sorted
      have hsep := h.separated
      rw [hf] at hs hsep
      obtain ⟨z, hz, huz, -⟩ := hsep m (by simp) y (by simp)
        ((pairwise_cons.mp hs).1 y (by simp)) (hfree m (by simp))
        (hfree y (by simp))
      rw [hfree z hz] at huz
      cases huz

end Dancy.Heap
