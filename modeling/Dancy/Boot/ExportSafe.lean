import Dancy.Boot.Export

/-!
# What the native map gives away

The two allocations of the loader lie apart (`Placed`), and the slots lie
in the first one. An address that is exported as free memory has a mark of
free memory on top, which begins in an allocation or with a descriptor of
conventional memory; marks of anything else begin or end before it.
-/

namespace Dancy.Boot.Uefi

open Dancy.Lib Dancy.Lib.Segments List Option

variable {ld : Loader} {db : Nat → Nat} {entries after : List BMem} {map : List EfiDescriptor}
  {r : MapReply} {f : Firmware} {t b x : Nat}

/-- The descriptors are areas that do not overlap, in order. -/
structure EfiMap (map : List EfiDescriptor) : Prop where
  lt : ∀ d ∈ map, d.physicalAddress < d.next
  next_eq : ∀ d ∈ map, d.next = d.physicalAddress + d.numberOfPages * 4096
  next_lt : ∀ d ∈ map, d.next < addrSpace
  apart : map.Pairwise fun d1 d2 => d1.next ≤ d2.physicalAddress

theorem pagesEnd_lt (addr pages : Nat) : pagesEnd addr pages < addrSpace :=
  Nat.mod_lt _ (by decide)

theorem pagesEnd_eq {addr pages : Nat} (hpages : pages < 0x10000000000000)
    (h : addr < pagesEnd addr pages) : pagesEnd addr pages = addr + pages * 4096 := by
  unfold pagesEnd addrSpace at *
  omega

theorem pagesEnd_of_lt {addr pages : Nat} (h : addr + pages * 4096 < addrSpace) :
    pagesEnd addr pages = addr + pages * 4096 := by
  unfold pagesEnd
  unfold addrSpace at *
  omega

theorem apart_of_overlapping (map : List EfiDescriptor) (h : overlapping map = false)
    (hlt : ∀ d ∈ map, d.physicalAddress < d.next) :
    map.Pairwise fun d1 d2 => d1.next ≤ d2.physicalAddress := by
  induction map with
  | nil => simp
  | cons d map ih =>
    cases map with
    | nil => exact pairwise_singleton _ _
    | cons d2 rest =>
      rw [overlapping, Bool.or_eq_false_iff, decide_eq_false_iff_not] at h
      have ih := ih h.2 fun d' hd' => hlt d' (.tail _ hd')
      have hle : d.next ≤ d2.physicalAddress := not_lt.mp h.1
      apply List.Pairwise.cons _ ih
      intro d' hd'
      rcases mem_cons.mp hd' with rfl | hd'
      · exact hle
      · have hd2 := hlt d2 (.tail _ mem_cons_self)
        have hnext := rel_of_pairwise_cons ih hd'
        omega

theorem efiMap_of_update (h : memoryUpdateMap r = some map) : EfiMap map := by
  unfold memoryUpdateMap at h
  simp only at h
  iterate 4
    split at h
    · cases h
  rename_i hcheck
  obtain rfl := some.inj h
  rw [Bool.or_eq_true, not_or, Bool.not_eq_true, Bool.not_eq_true] at hcheck
  obtain ⟨hcorrupt, hover⟩ := hcheck
  have hgood : ∀ d ∈ qsort qsortMap ((range (r.mapSize / r.descriptorSize)).map
      r.descriptors), d.numberOfPages < 0x10000000000000 ∧ d.physicalAddress < d.next := by
    intro d hd
    have hd := any_eq_false.mp hcorrupt d hd
    simp only [corrupted, decide_eq_true_eq] at hd
    omega
  exact ⟨fun d hd => (hgood d hd).2, fun d hd => pagesEnd_eq (hgood d hd).1 (hgood d hd).2,
    fun d hd => pagesEnd_lt _ _,
    apart_of_overlapping _ hover fun d hd => (hgood d hd).2⟩

theorem EfiMap.unique (h : EfiMap map) {d1 d2 : EfiDescriptor} (h1 : d1 ∈ map) (h2 : d2 ∈ map)
    (hx1 : d1.physicalAddress ≤ x ∧ x < d1.next) (hx2 : d2.physicalAddress ≤ x ∧ x < d2.next) :
    d1 = d2 := by
  obtain ⟨i, hi, rfl⟩ := mem_iff_getElem.mp h1
  obtain ⟨j, hj, rfl⟩ := mem_iff_getElem.mp h2
  have hapart := pairwise_iff_getElem.mp h.apart
  rcases Nat.lt_trichotomy i j with hlt | rfl | hlt
  · have hij := hapart i j hi hj hlt
    omega
  · rfl
  · have hji := hapart j i hj hi hlt
    omega

/-! ## The allocations -/

/-- Where `memory_init` puts the allocations and the slots. -/
structure Placed (ld : Loader) : Prop where
  next0 : ld.allocation0.next = ld.allocation0.memory + 0x4000000
  top0 : ld.allocation0.next ≤ 0xF0000000
  lt1 : ld.allocation1.memory < ld.allocation1.next
  next1 : ld.allocation1.next ≤ ld.allocation0.memory
  segments_ge : ld.allocation0.memory ≤ ld.segments
  segments_le : ld.segments ≤ ld.allocation0.memory + 0xFFFF

/-- A map in which pages are reported as allocated: no descriptor of
conventional memory meets them. -/
def Reported (a : Allocation) (r : MapReply) : Prop :=
  ∀ map, memoryUpdateMap r = some map → ∀ d ∈ map, d.type = efiConventionalMemory →
    d.next ≤ a.memory ∨ a.next ≤ d.physicalAddress

/-- The memory at `mem` that `find_free_memory` finds in a descriptor. -/
structure Found (map : List EfiDescriptor) (pages n mem : Nat) (d : EfiDescriptor) : Prop where
  member : d ∈ map
  type : d.type = efiConventionalMemory
  top : d.next ≤ 0xF0000000
  last : pages ≠ 0 → mem + pages * 4096 = d.next
  all : pages = 0 → n = d.numberOfPages ∧ mem = d.physicalAddress

theorem pred_mod {y : Nat} (hpos : 0 < y) (hlt : y < addrSpace) :
    (y + (addrSpace - 1)) % addrSpace = y - 1 := by
  have hsum : y + (addrSpace - 1) = y - 1 + addrSpace := by
    omega
  rw [hsum, Nat.add_mod_right, Nat.mod_eq_of_lt (by omega)]

theorem searchFree_found (hmap : EfiMap map) {pages : Nat} {found : Nat × Nat × Nat}
    {d : EfiDescriptor} (hd : d ∈ map)
    (h : found.2.1 = noMemory ∨ ∃ d, Found map pages found.1 found.2.1 d) :
    (searchFree pages found d).2.1 = noMemory ∨
      ∃ d', Found map pages (searchFree pages found d).1 (searchFree pages found d).2.1 d' := by
  have hlt := hmap.lt d hd
  have hnext := hmap.next_eq d hd
  have htop := hmap.next_lt d hd
  unfold searchFree
  simp only [pred_mod (by omega) htop]
  unfold maxAddress
  split
  · exact h
  have htype : d.type = efiConventionalMemory := by tauto
  have hlow : d.next ≤ 0xF0000000 := by omega
  by_cases hpages : pages = 0
  · rw [if_pos hpages]
    split
    · exact .inr ⟨d, hd, htype, hlow, fun hne => absurd hpages hne, fun _ => ⟨rfl, rfl⟩⟩
    · exact h
  rw [if_neg hpages]
  split
  · refine .inr ⟨d, hd, htype, hlow, fun _ => ?_, fun heq => absurd heq hpages⟩
    show d.physicalAddress + (d.numberOfPages - pages) * 4096 + pages * 4096 = d.next
    omega
  · exact h

theorem searchFree_foldl (hmap : EfiMap map) (pages : Nat) (l : List EfiDescriptor)
    (hl : ∀ d ∈ l, d ∈ map) (found : Nat × Nat × Nat)
    (h : found.2.1 = noMemory ∨ ∃ d, Found map pages found.1 found.2.1 d) :
    (l.foldl (searchFree pages) found).2.1 = noMemory ∨
      ∃ d, Found map pages (l.foldl (searchFree pages) found).1
        (l.foldl (searchFree pages) found).2.1 d := by
  induction l generalizing found with
  | nil => exact h
  | cons d l ih =>
    apply ih fun d' hd' => hl d' (.tail _ hd')
    exact searchFree_found hmap (hl d mem_cons_self) h

theorem findFreeMemory_found {pages n mem attr : Nat} (h : findFreeMemory r pages = (n, mem, attr))
    (hn : n ≠ 0) : mem = noMemory ∧ n = 1 ∨
      ∃ map d, memoryUpdateMap r = some map ∧ Found map pages n mem d := by
  unfold findFreeMemory at h
  cases hmap : memoryUpdateMap r with
  | none =>
    rw [hmap] at h
    obtain ⟨hone, hrest⟩ := Prod.mk.inj h
    exact .inl ⟨(Prod.mk.inj hrest).1.symm, hone.symm⟩
  | some map =>
    obtain ⟨found, hfold⟩ : ∃ found, map.foldl (searchFree pages)
      (if pages ≠ 0 then pages else 16, noMemory, 0) = found := ⟨_, rfl⟩
    rw [hmap] at h
    simp only [hfold] at h
    by_cases hno : found.2.1 = noMemory
    · rw [if_pos hno] at h
      exact absurd (Prod.mk.inj h).1.symm hn
    rw [if_neg hno] at h
    have hfound := searchFree_foldl (efiMap_of_update hmap) pages map
      (fun _ hd => hd) (if pages ≠ 0 then pages else 16, noMemory, 0) (.inl rfl)
    rw [hfold] at hfound
    obtain ⟨d, hd⟩ := hfound.resolve_left hno
    rw [h] at hd
    exact .inr ⟨map, d, rfl, hd⟩

theorem placed_of_init (h : memoryInit f = some ld) (hreported : Reported ld.allocation0 f.map1) :
    Placed ld := by
  obtain ⟨⟨n0, memory0, attr0⟩, h0⟩ : ∃ p, findFreeMemory f.map0 staticPages = p := ⟨_, rfl⟩
  obtain ⟨⟨n1, memory1, attr1⟩, h1⟩ : ∃ p, findFreeMemory f.map1 0 = p := ⟨_, rfl⟩
  unfold memoryInit at h
  simp only [h0, h1] at h
  split at h
  · cases h
  rename_i hfirst
  split at h
  · cases h
  rename_i hsecond
  split at h
  · cases h
  obtain rfl := some.inj h
  simp only [not_or, badAddress, decide_eq_true_eq] at hfirst hsecond
  obtain ⟨hn0, -, haddr0, hmax0⟩ := hfirst
  obtain ⟨hn1, -, ⟨haddr1, hmax1⟩, hlt⟩ := hsecond
  unfold maxAddress at hmax0 hmax1
  -- the first allocation is the end of a descriptor
  obtain ⟨map, d, hmap, hd⟩ := (findFreeMemory_found h0 hn0).resolve_left fun hno => by
    have hmem := hno.1
    unfold noMemory at hmem
    omega
  have hend0 := hd.last (by decide)
  have htop0 := hd.top
  unfold staticPages at hend0
  have hnext0 : pagesEnd memory0 staticPages = memory0 + 0x4000000 := by
    refine (pagesEnd_of_lt ?_).trans rfl
    unfold staticPages addrSpace
    omega
  -- the second one is another descriptor, from a quarter on
  obtain ⟨map1, d1, hmap1, hd1⟩ := (findFreeMemory_found h1 hn1).resolve_left fun hno => by
    have hmem := hno.1
    unfold noMemory at hmem
    unfold addrSpace at *
    omega
  obtain ⟨hall1, hall2⟩ := hd1.all rfl
  have hnext1 := (efiMap_of_update hmap1).next_eq d1 hd1.member
  have htop1 := hd1.top
  have hsum : memory1 + n1 / 4 * 4096 < addrSpace := by
    unfold addrSpace
    omega
  rw [Nat.mod_eq_of_lt hsum] at hlt haddr1 hmax1 ⊢
  have hnext : pagesEnd (memory1 + n1 / 4 * 4096) (n1 - n1 / 4) = d1.next := by
    rw [pagesEnd_of_lt (by unfold addrSpace; omega)]
    omega
  have happart := hreported map1 hmap1 d1 hd1.member hd1.type
  have hnext0' : (⟨memory0, staticPages, attr0⟩ : Allocation).next = memory0 + 0x4000000 := hnext0
  rw [hnext0'] at happart
  have hbelow : d1.next ≤ memory0 := by
    rcases happart with happart | happart
    · exact happart
    · omega
  refine ⟨hnext0', ?_, ?_, ?_, ?_, ?_⟩
  · rw [hnext0']
    omega
  · refine Nat.lt_of_lt_of_eq ?_ hnext.symm
    show memory1 + n1 / 4 * 4096 < d1.next
    omega
  · exact le_trans (le_of_eq hnext) hbelow
  · show memory0 ≤ (memory0 + 0xFFFF) % 0x100000000 / 0x10000 * 0x10000
    omega
  · show (memory0 + 0xFFFF) % 0x100000000 / 0x10000 * 0x10000 ≤ memory0 + 0xFFFF
    omega

/-! ## Free memory of an exported map -/

theorem inside_iff : inside ld x = true ↔ ld.allocation0.memory ≤ x ∧ x < ld.allocation0.next ∨
      ld.allocation1.memory ≤ x ∧ x < ld.allocation1.next := by
  simp [inside, Loader.allocations]

theorem inside_eq_false : inside ld x = false ↔
    ¬ (ld.allocation0.memory ≤ x ∧ x < ld.allocation0.next) ∧
      ¬ (ld.allocation1.memory ≤ x ∧ x < ld.allocation1.next) := by
  rw [← Bool.not_eq_true, inside_iff, not_or]

/-- The slots lie in the first allocation, with a page after the last one. -/
theorem Placed.slots (h : Placed ld) {i : Nat} (hi : i ≤ 1000) :
    ld.allocation0.memory ≤ ld.dbAll i ∧ ld.dbAll i + 4096 < ld.allocation0.next ∧
      ld.dbAll i = ld.segments + 0x20000 + i * 0x10000 := by
  have hge := h.segments_ge
  have hle := h.segments_le
  have hnext := h.next0
  have heq : ld.dbAll i = ld.segments + 0x20000 + i * 0x10000 := rfl
  omega

theorem normal_mark (h : Mark ld db entries t b) (ht : t = bMemNormal) :
    (∃ d ∈ ld.memoryMap, kept ld d ∧ d.type = efiConventionalMemory ∧ b = d.physicalAddress) ∨
      (∃ a ∈ ld.allocations, b = a.memory) ∨ (∃ i, i < 1000 ∧ db i = 0 ∧ b = ld.dbAll i) ∨
        b = ld.inX64Syscalls + 4096 := by
  cases h with
  | preserved hmem hm =>
    simp only [isAlloc, decide_eq_true_eq, ht] at hm
    exact absurd hm.1 (by decide)
  | first | high | descriptorEnd | allocationEnd | executable | syscalls => cases ht
  | descriptor hmem hd => exact .inl ⟨_, hmem, hd, ht, rfl⟩
  | allocation hmem => exact .inr (.inl ⟨_, hmem, rfl⟩)
  | database hi =>
    rename_i i
    refine .inr (.inr (.inl ⟨i, hi, ?_, rfl⟩))
    by_contra hne
    simp only [databaseType, ne_eq, hne, not_false_eq_true, if_true] at ht
    unfold bMemDatabaseMin bMemNormal at ht
    omega
  | afterSyscalls => omega

/-- How a mark of free memory comes on top at an address. -/
inductive Given (ld : Loader) (db : Nat → Nat) (b x : Nat) : Prop
  | descriptor {d : EfiDescriptor} (hmem : d ∈ ld.memoryMap) (hkept : kept ld d)
      (htype : d.type = efiConventionalMemory) (hb : b = d.physicalAddress) (hx : x < d.next)
  | allocation (hb : b = ld.allocation1.memory) (hx : x < ld.allocation1.next)
  | slots (hge : ld.allocation0.memory ≤ b) (hx : x < ld.allocation0.next)
      (hslot : b ≠ ld.allocation0.memory → (∃ i, i < 1000 ∧ db i = 0 ∧ b = ld.dbAll i) ∨
        b = ld.inX64Syscalls + 4096)

theorem Top.end_lt (h : Top (Mark ld db entries) x t b) {e : Nat}
    (he : Mark ld db entries bMemNotReported e) (hlt : b < e) : x < e := by
  by_contra hge
  have hlast := h.last _ _ he (not_lt.mp hge)
  omega

theorem given_of_top (hp : Placed ld) (hmap : EfiMap ld.memoryMap)
    (h : Top (Mark ld db entries) x bMemNormal b) : Given ld db b x := by
  have h0 : ld.allocation0 ∈ ld.allocations := mem_cons_self
  have h1 : ld.allocation1 ∈ ld.allocations := mem_cons_of_mem _ mem_cons_self
  have hlast := hp.slots (le_refl 1000)
  rcases normal_mark h.has rfl with
    ⟨d, hmem, hkept, htype, rfl⟩ | ⟨a, ha, rfl⟩ | ⟨i, hi, hdb, rfl⟩ | rfl
  · exact .descriptor hmem hkept htype rfl (h.end_lt (.descriptorEnd hmem hkept) (hmap.lt d hmem))
  · rcases mem_cons.mp ha with rfl | ha
    · exact .slots le_rfl (h.end_lt (.allocationEnd h0) (by omega))
        fun hne => absurd rfl hne
    · obtain rfl := mem_singleton.mp ha
      exact .allocation rfl (h.end_lt (.allocationEnd h1) hp.lt1)
  · have hslot := hp.slots (i := i) (by omega)
    exact .slots hslot.1 (h.end_lt (.allocationEnd h0) (by omega))
      fun _ => .inl ⟨i, hi, hdb, rfl⟩
  · exact .slots (Nat.le_trans hlast.1 (Nat.le_add_right _ _))
      (h.end_lt (.allocationEnd h0) hlast.2.1) fun _ => .inr rfl

/-- The allocated areas of the init module lie in the second allocation. -/
def SlotAllocs (ld : Loader) (entries : List BMem) : Prop :=
  ∀ b ∈ allocs entries, ld.allocation1.memory ≤ b.1 ∧ b.2 ≤ ld.allocation1.next

/-- Addresses that must not be given away: those of allocated areas of the
init module, of databases, of the init module with the native map, and of
descriptors that are not conventional memory. -/
inductive Protected (ld : Loader) (db : Nat → Nat) (entries : List BMem) (x : Nat) : Prop
  | alloc {b : Nat × Nat} (hb : b ∈ allocs entries) (hge : b.1 ≤ x) (hlt : x < b.2)
  | database {i : Nat} (hi : i < 1000) (hdb : db i ≠ 0) (hge : ld.dbAll i ≤ x)
      (hlt : x < ld.dbAll i + 0x10000)
  | executable (hge : ld.inX64 0 ≤ x) (hlt : x < ld.inX64 2)
  | descriptor {d : EfiDescriptor} (hmem : d ∈ ld.memoryMap)
      (htype : d.type ≠ efiConventionalMemory) (hge : d.physicalAddress ≤ x) (hlt : x < d.next)
      (hout : inside ld x = false)

theorem Top.mark_lt (h : Top (Mark ld db entries) x bMemNormal b) {t' b' : Nat}
    (hmark : Mark ld db entries t' b') (hrank : 8 < (t' + 1) % 0x100000000) (hle : b' ≤ x) :
    b' < b := by
  have hlast := h.last _ _ hmark hle
  unfold bMemNormal at hlast
  omega

theorem alloc_not_given (hp : Placed ld) (hs : SlotAllocs ld entries)
    (h : Top (Mark ld db entries) x bMemNormal b) (hgiven : Given ld db b x) {c : Nat × Nat}
    (hc : c ∈ allocs entries) (hge : c.1 ≤ x) : ¬ x < c.2 := by
  obtain ⟨m, hmem, hm, hbase⟩ := block_base hc
  obtain ⟨hmemory, hnext⟩ := hs c hc
  have hrank : 8 < (m.type + 1) % 0x100000000 := by
    obtain ⟨hmin, hmax⟩ := of_decide_eq_true hm
    unfold bMemInitAllocMin at hmin
    unfold bMemInitAllocMax at hmax
    omega
  have hbelow := h.mark_lt (.preserved hmem hm) hrank (le_trans (le_of_eq hbase) hge)
  have hle := h.le
  cases hgiven with
  | descriptor hd hkept htype hb hx =>
    have hout := inside_eq_false.mp hkept.1
    omega
  | allocation hb hx => omega
  | slots hge0 hx hslot =>
    have hapart := hp.next1
    omega

theorem database_not_given (hp : Placed ld) (h : Top (Mark ld db entries) x bMemNormal b)
    (hgiven : Given ld db b x) {i : Nat} (hi : i < 1000) (hdb : db i ≠ 0)
    (hge : ld.dbAll i ≤ x) : ¬ x < ld.dbAll i + 0x10000 := by
  have hrank : 8 < (databaseType db i + 1) % 0x100000000 := by
    simp only [databaseType, ne_eq, hdb, not_false_eq_true, if_true, bMemDatabaseMin]
    omega
  have hbelow := h.mark_lt (.database hi) hrank hge
  have hle := h.le
  have hslots := hp.slots (i := i) (by omega)
  have hlast := hp.slots (le_refl 1000)
  cases hgiven with
  | descriptor hd hkept htype hb hx =>
    have hout := inside_eq_false.mp hkept.1
    omega
  | allocation hb hx =>
    have hapart := hp.next1
    omega
  | slots hge0 hx hslot =>
    rcases hslot (by omega) with ⟨j, hj, -, hb⟩ | hb
    · have hslotj := hp.slots (i := j) (by omega)
      omega
    · unfold Loader.inX64Syscalls at hb
      omega

theorem executable_not_given (hp : Placed ld) (h : Top (Mark ld db entries) x bMemNormal b)
    (hgiven : Given ld db b x) (hge : ld.inX64 0 ≤ x) : ¬ x < ld.inX64 2 := by
  have hbelow := h.mark_lt .executable (by decide) hge
  have hle := h.le
  have hfirst : ld.dbAll 0 = ld.inX64 2 := rfl
  have hstart : ld.inX64 0 = ld.segments := rfl
  have hslots := hp.slots (i := 0) (by omega)
  have hlast := hp.slots (le_refl 1000)
  have hsegments := hp.segments_ge
  cases hgiven with
  | descriptor hd hkept htype hb hx =>
    have hout := inside_eq_false.mp hkept.1
    omega
  | allocation hb hx =>
    have hapart := hp.next1
    omega
  | slots hge0 hx hslot =>
    rcases hslot (by omega) with ⟨j, hj, -, hb⟩ | hb
    · have hslotj := hp.slots (i := j) (by omega)
      omega
    · unfold Loader.inX64Syscalls at hb
      omega

theorem descriptor_not_given (hmap : EfiMap ld.memoryMap)
    (h : Top (Mark ld db entries) x bMemNormal b) (hgiven : Given ld db b x) {d : EfiDescriptor}
    (hmem : d ∈ ld.memoryMap) (htype : d.type ≠ efiConventionalMemory)
    (hge : d.physicalAddress ≤ x) (hlt : x < d.next) : inside ld x = true := by
  have hle := h.le
  cases hgiven with
  | descriptor hd hkept htype' hb hx =>
    have heq := hmap.unique hmem hd ⟨hge, hlt⟩ ⟨by omega, hx⟩
    rw [heq] at htype
    omega
  | allocation hb hx => exact inside_iff.mpr (.inr ⟨by omega, hx⟩)
  | slots hge0 hx hslot => exact inside_iff.mpr (.inl ⟨by omega, hx⟩)

theorem not_protected_of_top (hp : Placed ld) (hmap : EfiMap ld.memoryMap)
    (hs : SlotAllocs ld entries) (h : Top (Mark ld db entries) x bMemNormal b) :
    ¬ Protected ld db entries x := by
  have hgiven := given_of_top hp hmap h
  intro hx
  cases hx with
  | alloc hb hge hlt => exact alloc_not_given hp hs h hgiven hb hge hlt
  | database hi hdb hge hlt => exact database_not_given hp h hgiven hi hdb hge hlt
  | executable hge hlt => exact executable_not_given hp h hgiven hge hlt
  | descriptor hmem htype hge hlt hout =>
    rw [descriptor_not_given hmap h hgiven hmem htype hge hlt] at hout
    cases hout

theorem exported_of_export {finalize : Bool} {nativeMap : List BMem}
    (h : memoryExportMap ld db finalize nativeMap = some (entries, after)) :
    Exported ld finalize (Mark ld db (nativeMap.takeWhile validEntry)) entries after := by
  unfold memoryExportMap at h
  simp only at h
  split at h
  · cases h
  split at h
  · cases h
  rename_i n hn
  have hhas : Has n = Mark ld db (nativeMap.takeWhile validEntry) := by
    funext t b
    exact propext (has_putMarks hn)
  rw [← hhas]
  refine finishMap_exported ⟨bMemNotReported, 0, ?_⟩ h
  rw [hhas]
  exact .first

/-- Free memory that the init module may allocate lies in the second allocation. -/
theorem unflagged_inside (hp : Placed ld) {m : BMem}
    (h : Exported ld false (Mark ld db []) entries after)
    (hseg : segAt BMem.base entries x = some m) (htype : m.type = bMemNormal)
    (hflag : m.flags.testBit 16 = false) :
    ld.allocation1.memory ≤ x ∧ x < ld.allocation1.next := by
  obtain ⟨t, b, htop, rfl, hflags⟩ := h.top x m hseg
  have hb : b = ld.allocation1.memory := by
    by_contra hne
    rw [hflags, flagsOf, if_pos ⟨htype, rfl, hne⟩] at hflag
    cases hflag
  have hmem : ld.allocation1 ∈ ld.allocations := mem_cons_of_mem _ mem_cons_self
  have hlt1 := hp.lt1
  exact ⟨hb ▸ htop.le, htop.end_lt (.allocationEnd hmem) (by omega)⟩

variable {s s' s0 : MemState} {mapAddr : Nat}

/-- No allocated area has `B_FLAG_NO_INIT_ALLOC`. -/
def Unflagged (map : List BMem) : Prop :=
  ∀ x < addrSpace, ∀ k, kindAt map x = some k → k.type = bMemInitAllocMin →
    k.flags.testBit 16 = false

theorem under_type_ne (m : BMem) : (under m).type ≠ bMemInitAllocMin := by
  unfold under
  cases hm : isAlloc m with
  | true =>
    show bMemNormal ≠ bMemInitAllocMin
    decide
  | false =>
    intro htype
    have htype : m.type = bMemInitAllocMin := htype
    rw [isAlloc, htype] at hm
    revert hm
    decide

theorem unflagged_alloc (h : Unflagged s.map) {alignment size addr e : Nat}
    (hg : Boot.Given s s' alignment size addr e) : Unflagged s'.map := by
  intro x hx k hk htype
  by_cases hin : addr ≤ x ∧ x < e
  · obtain ⟨flags, other, -, -, hflags, htaken⟩ := hg.taken x hin.1 hin.2
    rw [htaken] at hk
    obtain rfl := some.inj hk
    exact hflags
  · rw [hg.frame x hin] at hk
    exact h x hx k hk htype

theorem unflagged_free (h : Unflagged s.map) {ptr : Nat} (hf : Freed s s' ptr) :
    Unflagged s'.map := by
  intro x hx k hk htype
  by_cases hin : ∀ b ∈ allocs s.map, b.1 = ptr → ¬ (b.1 ≤ x ∧ x < b.2)
  · rw [hf.frame x hx hin] at hk
    exact h x hx k hk htype
  simp only [not_forall, not_not] at hin
  obtain ⟨b, hb, hptr, hge, hlt⟩ := hin
  rw [hf.restored b hb hptr x hge hlt] at hk
  obtain ⟨m, -, rfl⟩ := map_eq_some_iff.mp hk
  exact absurd htype (under_type_ne m)

theorem unflagged_alignedAlloc (hinv : RunInv mapAddr entries s) (h : Unflagged s.map)
    (alignment size : Nat) : Unflagged (alignedAlloc s alignment size).2.map := by
  rcases alignedAlloc_given hinv.inv hinv.enabled alignment size with
    hnone | ⟨addr, e, s', heq, -, hg, -⟩
  · rwa [hnone]
  · rw [heq]
    exact unflagged_alloc h hg

theorem unflagged_exec (hinv : RunInv mapAddr entries s) (h : Unflagged s.map) (c : MemCall) :
    Unflagged (s.exec c).map := by
  cases c with
  | alignedAlloc alignment size => exact unflagged_alignedAlloc hinv h alignment size
  | malloc size => exact unflagged_alignedAlloc hinv h 16 size
  | calloc nmemb size =>
    show Unflagged (Boot.calloc s nmemb size).2.map
    unfold Boot.calloc
    simp only
    split
    · exact h
    · exact unflagged_alignedAlloc hinv h 16 _
  | free ptr =>
    show Unflagged (Boot.free s ptr).map
    by_cases hptr : ptr = 0
    · unfold Boot.free
      rwa [if_pos (.inl hptr)]
    · exact unflagged_free h (free_freed hinv.inv hinv.enabled hptr).2.1

theorem unflagged_of_run {cs : List MemCall} (hinit : InitialMap mapAddr entries s0)
    (h : Unflagged entries) (hrun : Run memStep s0 cs s) :
    RunInv mapAddr entries s ∧ Unflagged s.map := by
  refine hrun.invariant (I := fun s => RunInv mapAddr entries s ∧ Unflagged s.map)
    (fun s c s' h hstep => ?_) ?_
  · rw [hstep]
    exact ⟨exec_inv c h.1, unflagged_exec h.1 h.2 c⟩
  · rw [hinit.check.1]
    exact ⟨⟨hinit.inv, fun _ => rfl, rfl, rfl⟩, h⟩

/-- The firmware reports no memory of a type of the init module. -/
def NoInitTypes (map : List EfiDescriptor) : Prop :=
  ∀ d ∈ map, ¬ (bMemInitAllocMin ≤ d.type ∧ d.type ≤ bMemInitAllocMax)

theorem not_alloc_of_export {finalize : Bool} (htypes : NoInitTypes ld.memoryMap)
    (h : Exported ld finalize (Mark ld db []) entries after) {m : BMem} (hm : m ∈ entries) :
    isAlloc m = false := by
  obtain ⟨t, b, htop, htype, -⟩ := h.top m.base m (segAt_self h.strict hm)
  unfold isAlloc
  rw [htype, decide_eq_false_iff_not]
  have hconst : ∀ c, c = bMemNotReported ∨ c = bMemNormal ∨ c = bMemInitExecutable ∨
      c = bMemUefiSyscalls ∨ bMemDatabaseMin ≤ c →
      ¬ (bMemInitAllocMin ≤ c ∧ c ≤ bMemInitAllocMax) := by
    intro c hc
    unfold bMemNotReported bMemNormal bMemInitExecutable bMemUefiSyscalls bMemDatabaseMin at hc
    unfold bMemInitAllocMin bMemInitAllocMax
    omega
  cases htop.has with
  | preserved hmem hm => cases hmem
  | descriptor hmem hd => exact htypes _ hmem
  | database hi =>
    apply hconst
    unfold databaseType
    split
    · omega
    · exact .inr (.inl rfl)
  | _ => exact hconst _ (by simp)

/-- What the native map holds when it is exported: nothing yet, or what a
run of the init module made of the first export, with any map of the
firmware. -/
inductive Reached (ld : Loader) : List BMem → Prop
  | cleared {nativeMap : List BMem} (h : nativeMap.takeWhile validEntry = []) :
      Reached ld nativeMap
  | run {r : MapReply} {map : List EfiDescriptor} {db : Nat → Nat}
      {cleared entries after nativeMap : List BMem} {s0 s : MemState} {cs : List MemCall}
      (hmap : memoryUpdateMap r = some map) (htypes : NoInitTypes map)
      (hcleared : cleared.takeWhile validEntry = [])
      (hexport : memoryExportMap { ld with memoryMap := map } db false cleared =
        some (entries, after))
      (hinit : Boot.memoryInit (ld.inX64 1) entries = some s0)
      (hrun : Run memStep s0 cs s) (hnative : nativeMap.takeWhile validEntry = s.map) :
      Reached ld nativeMap

theorem slotAllocs_of_run (ld : Loader) {cs : List MemCall} (hp : Placed ld) (htypes : NoInitTypes ld.memoryMap)
    (h : Exported ld false (Mark ld db []) entries after)
    (hinit : Boot.memoryInit mapAddr entries = some s0) (hrun : Run memStep s0 cs s) :
    SlotAllocs ld s.map := by
  have hfree : ∀ m ∈ entries, isAlloc m = false := fun m hm => not_alloc_of_export htypes h hm
  have hinitial : InitialMap mapAddr entries s0 :=
    ⟨hinit, h.valid, fun m hm => hfree m (mem_of_mem_head? hm)⟩
  have hunflagged : Unflagged entries := by
    intro x _ k hk htype
    obtain ⟨m, hseg, rfl⟩ := map_eq_some_iff.mp hk
    rw [kind_eq_under (hfree m (segAt_mem hseg).1)] at htype
    exact absurd htype (under_type_ne m)
  obtain ⟨hinv, hflags⟩ := unflagged_of_run hinitial hunflagged hrun
  intro b hb
  obtain ⟨hlt, htop⟩ := block_lt hinv.inv.covers.strict hinv.inv.covers.lt_top b hb
  -- every address of the area was free and without a flag in the exported map
  have hin : ∀ x, b.1 ≤ x → x < b.2 → ld.allocation1.memory ≤ x ∧ x < ld.allocation1.next := by
    intro x hge hx
    have hxtop : x < addrSpace := lt_of_lt_of_le hx htop
    have hmem : (∃ c ∈ allocs s.map, c.1 ≤ x ∧ x < c.2) ↔
        ∃ m, segAt BMem.base s.map x = some m ∧ isAlloc m = true :=
      mem_blocks hinv.inv.sorted hxtop
    obtain ⟨m, hseg, hm⟩ := hmem.mp ⟨b, hb, hge, hx⟩
    have hkind : kindAt s.map x = some ⟨bMemInitAllocMin, m.flags, m.other⟩ := by
      unfold kindAt kind
      rw [hseg, map_some, hm]
      rfl
    have hflag := hflags x hxtop ⟨bMemInitAllocMin, m.flags, m.other⟩ hkind rfl
    have hunder : underAt entries x = some ⟨bMemNormal, m.flags, m.other⟩ := by
      rw [← hinv.underAt]
      unfold underAt under
      rw [hseg, map_some, hm]
      rfl
    obtain ⟨m0, hseg0, hm0⟩ := map_eq_some_iff.mp hunder
    rw [← kind_eq_under (hfree m0 (segAt_mem hseg0).1), kind, hfree m0 (segAt_mem hseg0).1] at hm0
    obtain ⟨htype0, hflags0, -⟩ := Kind.mk.inj hm0
    exact unflagged_inside hp h hseg0 htype0 (by rw [hflags0]; exact hflag)
  have hfirst := hin b.1 le_rfl hlt
  have hlast := hin (b.2 - 1) (by omega) (by omega)
  omega

theorem slotAllocs_of_reached {nativeMap : List BMem} (hp : Placed ld) (h : Reached ld nativeMap) :
    SlotAllocs ld (nativeMap.takeWhile validEntry) := by
  cases h with
  | cleared h =>
    rw [h]
    exact fun b hb => absurd hb not_mem_nil
  | run hmap htypes hcleared hexport hinit hrun hnative =>
    rename_i r map db cleared entries after s0 s cs
    have hexported := exported_of_export hexport
    rw [hcleared] at hexported
    have hp' : Placed { ld with memoryMap := map } :=
      ⟨hp.next0, hp.top0, hp.lt1, hp.next1, hp.segments_ge, hp.segments_le⟩
    rw [hnative]
    exact slotAllocs_of_run { ld with memoryMap := map } hp' htypes hexported hinit hrun

/-- An export: its order, the entry at 4 GiB, the empty entries after it, and
what it does not give away. The allocated areas of the init module lie in
the second allocation, and do so in every map that is reached. -/
theorem memoryExportMap_safe {f : Firmware} {ld : Loader} {r : MapReply}
    {map : List EfiDescriptor} (hinit : memoryInit f = some ld)
    (hreported : Reported ld.allocation0 f.map1) (hmap : memoryUpdateMap r = some map) :
    (∀ nativeMap, Reached ld nativeMap → SlotAllocs ld (nativeMap.takeWhile validEntry)) ∧
      ∀ (db : Nat → Nat) (finalize : Bool) (nativeMap entries after : List BMem),
        SlotAllocs ld (nativeMap.takeWhile validEntry) →
        memoryExportMap { ld with memoryMap := map } db finalize nativeMap =
          some (entries, after) →
        (entries.Pairwise fun m1 m2 => m1.base < m2.base) ∧
          (∃ m ∈ entries, m.base = 0x100000000) ∧
          (∀ i < 4, ∃ m, after[i]? = some m ∧ isEmptyEntry m = true) ∧
          ∀ x, Protected { ld with memoryMap := map } db (nativeMap.takeWhile validEntry) x →
            typeAt entries x ≠ some bMemNormal := by
  have hp := placed_of_init hinit hreported
  refine ⟨fun nativeMap h => slotAllocs_of_reached hp h, fun db finalize nativeMap entries after
    hslot hexport => ?_⟩
  have hp' : Placed { ld with memoryMap := map } :=
    ⟨hp.next0, hp.top0, hp.lt1, hp.next1, hp.segments_ge, hp.segments_le⟩
  have h := exported_of_export hexport
  refine ⟨h.strict, h.high ⟨_, .high⟩, fun i hi => ?_, fun x hx htype => ?_⟩
  · have hempty := h.after
    rw [emptyAfter, List.all_eq_true] at hempty
    have hempty := hempty i (mem_range.mpr hi)
    cases hget : after[i]? with
    | none =>
      rw [hget] at hempty
      cases hempty
    | some m =>
      rw [hget] at hempty
      exact ⟨m, rfl, hempty⟩
  · obtain ⟨m, hseg, hm⟩ := map_eq_some_iff.mp htype
    obtain ⟨t, b, htop, ht, -⟩ := h.top x m hseg
    rw [← ht, hm] at htop
    exact not_protected_of_top hp' (efiMap_of_update hmap) hslot htop hx

/-! ## A small machine -/

def replyOf (l : List EfiDescriptor) : MapReply :=
  ⟨true, 48 * l.length, 48, fun i => l.getD i ⟨0, 0, 0, 0⟩⟩

/-- Reserved memory, code of the firmware and a device. -/
def deviceAreas : List EfiDescriptor :=
  [⟨0, 0x20000000, 16, 0⟩, ⟨5, 0x20010000, 16, 0⟩, ⟨11, 0xFEC00000, 1, 0⟩]

def loaderAreas : List EfiDescriptor :=
  ⟨7, 0x100000, 0x3000, 0⟩ :: ⟨1, 0x3100000, 0xD000, 0⟩ :: deviceAreas

def smallFirmware : Firmware where
  map0 := replyOf (⟨7, 0x100000, 0x10000, 0⟩ :: deviceAreas)
  allocate0 := true
  map1 := replyOf (⟨7, 0x100000, 0xC000, 0⟩ :: ⟨1, 0xC100000, 0x4000, 0⟩ :: deviceAreas)
  allocate1 := true
  map2 := replyOf loaderAreas

def smallLoader : Loader where
  allocation0 := ⟨0xC100000, 0x4000, 0⟩
  allocation1 := ⟨0x3100000, 0x9000, 0⟩
  segments := 0xC100000
  memoryMap := loaderAreas

def firstDatabases (i : Nat) : Nat := if i < 3 then 1 else 0

def smallNativeMap : List BMem :=
  ⟨bMemInitAllocMin, 1, 0x5000000, 0⟩ :: ⟨bMemNormal, 1, 0x5001000, 0⟩ ::
    replicate 2046 emptyEntry

theorem memoryExportMap_safe_small : ∃ entries after,
    memoryExportMap smallLoader firstDatabases true smallNativeMap = some (entries, after) ∧
      typeAt entries 0x5000800 ≠ some bMemNormal ∧ typeAt entries 0xC120000 ≠ some bMemNormal ∧
        ∃ m ∈ entries, m.base = 0x100000000 := by
  obtain ⟨⟨entries, after⟩, hexport⟩ := isSome_iff_exists.mp (show
    (memoryExportMap smallLoader firstDatabases true smallNativeMap).isSome = true by
      decide +kernel)
  have hmap1 : memoryUpdateMap smallFirmware.map1 =
      some (⟨7, 0x100000, 0xC000, 0⟩ :: ⟨1, 0xC100000, 0x4000, 0⟩ :: deviceAreas) := by
    decide
  have hreported : Reported smallLoader.allocation0 smallFirmware.map1 := by
    intro map hmap d hd
    rw [hmap1] at hmap
    obtain rfl := some.inj hmap
    revert d hd
    decide
  have hvalid : smallNativeMap.takeWhile validEntry =
      [⟨bMemInitAllocMin, 1, 0x5000000, 0⟩, ⟨bMemNormal, 1, 0x5001000, 0⟩] := by decide
  have hallocs : allocs (smallNativeMap.takeWhile validEntry) = [(0x5000000, 0x5001000)] := by
    rw [hvalid]
    decide
  have h := (memoryExportMap_safe
    (show memoryInit smallFirmware = some smallLoader by decide) hreported
    (show memoryUpdateMap smallFirmware.map2 = some loaderAreas by decide)).2 firstDatabases true smallNativeMap entries after
    (by rw [SlotAllocs, hallocs]; decide) hexport
  refine ⟨entries, after, hexport, h.2.2.2 _ (.alloc (b := (0x5000000, 0x5001000)) ?_ ?_ ?_),
    h.2.2.2 _ (.database (i := 0) ?_ ?_ ?_ ?_), h.2.1⟩
  · rw [hallocs]
    exact mem_cons_self
  all_goals decide

end Dancy.Boot.Uefi
