import Dancy.Lib.Descent
import Dancy.Pg.Check

/-!
# The mapping of the kernel (`pg.c`, 64-bit)

`pg_map_kernel` maps physical memory where it lies, or behind the extended
offset, with pages of 1 GiB, 2 MiB or 4 KiB. Its tables come from `mm.c` or,
before that is ready, from the start of the heap.
-/

namespace Dancy.Pg

open Dancy.Mm Dancy.Lib Function
open Dancy.Lib.Descent (Agree Separate)

/-- What `heap.c` knows of the start of the heap: the address and the size of
`heap_map`, and its first two entries. -/
structure StaticHeap where
  (map mapSize first second : Nat)

/-- `heap_alloc_static_page`: `heap_map` moves up by one page; `0` is NULL.
What is in `heap_map` is no page table and is left out of memory. -/
def heapAllocStaticPage (h : StaticHeap) : Nat × StaticHeap :=
  if h.first.testBit 0 then (0, h)
  else if (h.second + 0x100000000 - h.first) % 0x100000000 < 0x2000 then (0, h)
  else
    (h.map, { h with map := h.map + 0x1000, first := (h.map + 0x1000 + h.mapSize) % 0x100000000 })

/-- Memory as the paging code sees it, the allocators, `pg_ready` and
`pg_kernel_pde`. -/
structure KernelPages where
  mem : PageMem
  mm : MmState
  heap : StaticHeap
  pgReady : Bool
  pgKernelPde : Nat

/-- What does not change after `pg_init` has begun: `pg_kernel`, the slot of
`pg_read_memory`, the two addresses of the local APIC and
`kernel->cpu_feature.gpage`. -/
structure PgSettings where
  (pgKernel pgRwVaddr pgApicBaseVaddr apicBaseAddr : Nat)
  gpage : Bool
  rwAligned : pgRwVaddr % 0x1000 = 0

namespace KernelPages

def write (s : KernelPages) (t i v : Nat) : KernelPages :=
  { s with mem := Function.update s.mem t (Function.update (s.mem t) i v) }

/-- `memset(frame, 0, 0x1000)`. -/
def zeroFrame (s : KernelPages) (f : Nat) : KernelPages :=
  { s with mem := Function.update s.mem f fun _ => 0 }

end KernelPages

/-- `pg_alloc_static_page`; `0` is NULL. -/
def pgAllocStaticPage (s : KernelPages) : Nat × KernelPages :=
  let p := if s.pgReady then mmAllocPages s.mm .addr32 0 else (0, s.mm)
  let s := { s with mm := p.2 }
  if p.1 ≠ 0 then (p.1, s.zeroFrame (p.1 / 0x1000))
  else
    let h := heapAllocStaticPage s.heap
    let s := { s with heap := h.2 }
    if h.1 ≠ 0 then (h.1, s.zeroFrame (h.1 / 0x1000)) else (0, s)

/-! ## One page -/

inductive PageType where
  | page
  | mega
  | giga
deriving DecidableEq

/-- The number of bytes: `0x1000`, `pg_mega_size` and `pg_giga_size`. -/
def PageType.size : PageType → Nat
  | .page => 0x1000
  | .mega => 0x200000
  | .giga => 0x40000000

def pgUncached : Nat := 0x01
def pgExtended : Nat := 0x02

def isUncached (type : Nat) : Bool := type &&& pgUncached ≠ 0

def isExtended (type : Nat) : Bool := type &&& pgExtended ≠ 0

/-- One level of `pg_map_identity`: the table that entry `i` of table `t`
points to, which is made when the entry is not present; `none` is the return
value `1`. Entries of the top level are not tested for a large page. -/
def pgEnterStatic (s : KernelPages) (t i : Nat) (testLarge : Bool) : Option Nat × KernelPages :=
  if !present (s.mem t i) then
    let r := pgAllocStaticPage s
    if r.1 = 0 then (none, r.2)
    else
      let s := r.2.write t i (r.1 ||| 0x23)
      (some (tableOf (s.mem t i)), s)
  else if testLarge && large (s.mem t i) then (none, s)
  else (some (tableOf (s.mem t i)), s)

/-- `page_bits` of a leaf. -/
def leafBits (type : Nat) (globalPage largePage : Bool) : Nat :=
  let bits := 0x23
  let bits := if isUncached type then bits ||| 0x18 else bits
  let bits := if globalPage then bits ||| 0x100 else bits
  if largePage then bits ||| 0x80 else bits

/-- A large page, unless there is one already; `true` is the return value
`1`. -/
def pgSetLarge (s : KernelPages) (t i v : Nat) : Bool × KernelPages :=
  if present (s.mem t i) then (!large (s.mem t i), s) else (false, s.write t i v)

/-- The branch of `pg_map_identity` for `pg_giga_type`. -/
def pgSetGiga (K : PgSettings) (s : KernelPages) (pdpe addr type : Nat) : Bool × KernelPages :=
  if !K.gpage then (true, s)
  else
    pgSetLarge s pdpe (pgIndex addr 1)
      (addr / 0x40000000 * 0x40000000 ||| leafBits type (isExtended type) true)

/-- The branch of `pg_map_identity` for `pg_mega_type`. -/
def pgSetMega (s : KernelPages) (pde addr type : Nat) : Bool × KernelPages :=
  let page := addr / 0x200000 * 0x200000
  pgSetLarge s pde (pgIndex addr 2)
    (page ||| leafBits type (decide (page < 0x10000000) || isExtended type) true)

/-- The last level of `pg_map_identity`. -/
def pgSetKernelPage (K : PgSettings) (s : KernelPages) (pte addr type : Nat) : KernelPages :=
  let page := addr / 0x1000 * 0x1000
  let bits := leafBits type
    (decide (page ≠ K.pgRwVaddr) && (decide (page < 0x10000000) || isExtended type)) false
  let i := pgIndex addr 3
  if page = K.pgApicBaseVaddr then s.write pte i (K.apicBaseAddr ||| (bits ||| 0x18))
  else if !present (s.mem pte i) then s.write pte i (page ||| bits)
  else if isUncached type then s.write pte i (s.mem pte i ||| 0x18)
  else s

/-- `pg_map_identity`; `true` is the return value `1`. -/
def pgMapIdentity (K : PgSettings) (s : KernelPages) (addr type : Nat) (pageType : PageType) :
    Bool × KernelPages :=
  if addr < 0x10000000 ∧ pageType ≠ .page then (true, s)
  else if addr >>> 39 > 0xFF then (true, s)
  else if isExtended type ∧ addr >>> 39 ≠ 0 then (true, s)
  else
    match pgEnterStatic s (K.pgKernel / 0x1000)
      (if isExtended type then 511 else addr >>> 39) false with
    | (none, s) => (true, s)
    | (some pdpe, s) =>
      if pageType = .giga then pgSetGiga K s pdpe addr type
      else
        match pgEnterStatic s pdpe (pgIndex addr 1) true with
        | (none, s) => (true, s)
        | (some pde, s) =>
          let s := { s with
            pgKernelPde := if s.pgKernelPde = 0 then pde * 0x1000 else s.pgKernelPde }
          if pageType = .mega then pgSetMega s pde addr type
          else
            match pgEnterStatic s pde (pgIndex addr 2) true with
            | (none, s) => (true, s)
            | (some pte, s) => (false, pgSetKernelPage K s pte addr type)

/-- `pg_map_identity` with a large page, when the rest of the range begins
with one. -/
def pgTryLarge (K : PgSettings) (s : KernelPages) (addr type sub : Nat) (pageType : PageType) :
    Bool × KernelPages :=
  if addr % pageType.size = 0 ∧ sub ≥ pageType.size then pgMapIdentity K s addr type pageType
  else (true, s)

/-- The loop of `pg_map_kernel`, with at most this many rounds; `true` stands
for `addr = 0`. -/
def pgMapKernelLoop (K : PgSettings) (type addrEnd : Nat) :
    (rounds : Nat) → KernelPages → (addrBeg : Nat) → Bool × KernelPages
  | 0, s, _ => (false, s)
  | rounds + 1, s, addrBeg =>
    let sub := (addrEnd + addrTop - addrBeg) % addrTop
    if sub = 0 then (false, s)
    else
      match pgTryLarge K s addrBeg type sub .giga with
      | (false, s) =>
        pgMapKernelLoop K type addrEnd rounds s ((addrBeg + PageType.giga.size) % addrTop)
      | (true, s) =>
        match pgTryLarge K s addrBeg type sub .mega with
        | (false, s) =>
          pgMapKernelLoop K type addrEnd rounds s ((addrBeg + PageType.mega.size) % addrTop)
        | (true, s) =>
          match pgMapIdentity K s addrBeg type .page with
          | (true, s) => (true, s)
          | (false, s) =>
            pgMapKernelLoop K type addrEnd rounds s ((addrBeg + PageType.page.size) % addrTop)

/-- The virtual address of the kernel for a physical one. -/
def virt (extended : Bool) (addr : Nat) : Nat :=
  if extended then addr ||| 0xFFFFFF8000000000 else addr

/-- `pg_map_kernel` with this value of the register CR3; `locked` says whether
the mutex was locked, and `0` is NULL. -/
def pgMapKernel (K : PgSettings) (s : KernelPages) (cr3 : Nat) (locked : Bool)
    (addr size type : Nat) : Nat × KernelPages :=
  if size = 0 ∨ addr > (addrTop - 1 - size) + 1 then (0, s)
  else
    let addrBeg := addr / 0x1000 * 0x1000
    let addrEnd := ((addr + size) % addrTop + 0xFFF) % addrTop / 0x1000 * 0x1000
    if addrBeg = 0 then (0, s)
    else if s.pgReady && decide (cr3 / 0x1000 * 0x1000 ≠ K.pgKernel) then (0, s)
    else if s.pgReady && !locked then (0, s)
    else
      let rounds := (addrEnd + addrTop - addrBeg) % addrTop / 0x1000
      let r := pgMapKernelLoop K type addrEnd rounds s addrBeg
      let addr := if r.1 then 0 else addr
      (if addr ≠ 0 ∧ isExtended type then virt true addr else addr, r.2)

/-! ## The walk of the processor -/

/-- Whether an entry of level `k` maps a page. -/
def maps (k e : Nat) : Bool := present e && (k == 3 || (k != 0 && large e))

/-- No caching: `PWT` and `PCD`. -/
def uncached (e : Nat) : Bool := e.testBit 3 && e.testBit 4

def pgWalkFrom (mem : PageMem) (addr : Nat) : (left k t : Nat) → Option (Nat × Nat)
  | 0, _, _ => none
  | left + 1, k, t =>
    let e := mem t (pgIndex addr k)
    if maps k e then some (k, e)
    else if leads k e then pgWalkFrom mem addr left (k + 1) (tableOf e)
    else none

/-- The entry that maps a virtual address, with its level. -/
def pgWalk (mem : PageMem) (cr3 addr : Nat) : Option (Nat × Nat) :=
  pgWalkFrom mem addr 4 0 (cr3 / 0x1000)

def span (k : Nat) : Nat := 2 ^ (39 - 9 * k)

/-- The physical address that the entry gives to a virtual address. -/
def physical (k e addr : Nat) : Nat := frameOf e * 0x1000 / span k * span k + addr % span k

variable {mem mem' : PageMem} {cr3 t a b k j e : Nat}

/-- The table that an entry of level `k` leads to. -/
def kid (k e : Nat) : Option Nat := if k < 3 ∧ leads k e = true then some (tableOf e) else none

/-- The table of level `k` on a path. -/
abbrev kernelTable (mem : PageMem) (root : Nat) (path : Nat → Nat) : Nat → Option Nat :=
  Descent.tableAt kid mem root path

variable {root e' : Nat} {extended : Bool}

theorem tableAt_eq : ∀ {k : Nat}, k ≤ 3 →
    tableAt mem root a k = kernelTable mem root (pgIndex a) k := by
  intro k
  induction k with
  | zero => exact fun _ => rfl
  | succ k ih =>
    intro hk
    refine Option.ext fun u => ?_
    rw [tableAt_succ, Descent.tableAt_succ, ih (by omega)]
    refine exists_congr fun t => and_congr_right fun _ => ?_
    rw [kid, Option.ite_none_right_eq_some, Option.some.injEq, and_assoc, eq_comm (a := u)]
    exact ⟨fun h => ⟨hk, h⟩, fun h => h.2⟩

theorem kernelTable_le {p : Nat → Nat} (h : kernelTable mem root p k = some t) :
    k ≤ 3 := by
  by_contra hk
  obtain ⟨j, rfl⟩ : ∃ j, k = j + 1 := ⟨k - 1, by omega⟩
  obtain ⟨u, -, hu⟩ := Descent.tableAt_succ.mp h
  rw [kid, if_neg fun hc => hk (by omega)] at hu
  cases hu

/-! ## Leaves -/

theorem kid_of_maps (h : maps k e = true) : kid k e = none := by
  simp only [maps, Bool.and_eq_true, Bool.or_eq_true, beq_iff_eq, bne_iff_ne] at h
  rw [kid, if_neg]
  rintro ⟨hk, hlead⟩
  simp only [leads, Bool.and_eq_true, Bool.not_eq_true', Bool.and_eq_false_iff] at hlead
  rcases h.2 with h3 | ⟨h0, hlarge⟩
  · omega
  rcases hlead.2 with hz | hno
  · simp only [bne_eq_false_iff_eq] at hz
    exact h0 hz
  · rw [hlarge] at hno
    cases hno

theorem kid_of_absent (h : present e = false) : kid k e = none := by
  rw [kid, if_neg]
  rintro ⟨-, hlead⟩
  simp [leads, h] at hlead

theorem kid_three (e : Nat) : kid 3 e = none := by
  rw [kid, if_neg]
  omega

theorem maps_three (e : Nat) : maps 3 e = present e := by simp [maps]

theorem maps_zero (e : Nat) : maps 0 e = false := by simp [maps]

theorem maps_of_absent (h : present e = false) : maps k e = false := by simp [maps, h]

theorem maps_large (hk : k ≠ 0) (hp : present e = true) (hl : large e = true) :
    maps k e = true := by
  simp [maps, hp, hl, hk]

theorem kernelTable_beyond {p : Nat → Nat} (h : kernelTable mem root p j = some t)
    (hkid : kid j (mem t (p j)) = none) (hjk : j < k) : kernelTable mem root p k = none := by
  obtain ⟨d, rfl⟩ : ∃ d, k = j + 1 + d := ⟨k - (j + 1), by omega⟩
  induction d with
  | zero =>
    show (kernelTable mem root p j).bind _ = none
    rwa [h]
  | succ d ih =>
    show (kernelTable mem root p (j + 1 + d)).bind _ = none
    rw [ih (by omega)]
    rfl

theorem pgWalkFrom_iff (left : Nat) : ∀ {k t : Nat}, k + left = 4 →
    kernelTable mem (cr3 / 0x1000) (pgIndex a) k = some t →
      (pgWalkFrom mem a left k t = some (j, e) ↔ k ≤ j ∧ j ≤ 3 ∧
        ∃ u, kernelTable mem (cr3 / 0x1000) (pgIndex a) j = some u ∧ mem u (pgIndex a j) = e ∧
          maps j e = true) := by
  induction left with
  | zero =>
    intro k t hk _
    refine ⟨fun h => Option.noConfusion rfl (heq_of_eq h), fun h => ?_⟩
    omega
  | succ left ih =>
    intro k t hk ht
    -- A leaf at this level is the leaf of the walk.
    have hhere : ∀ {u : Nat}, kernelTable mem (cr3 / 0x1000) (pgIndex a) k = some u → u = t :=
      fun hu => Option.some.inj (hu.symm.trans ht)
    rw [pgWalkFrom]
    by_cases hmaps : maps k (mem t (pgIndex a k)) = true
    · rw [if_pos hmaps]
      constructor
      · intro h
        obtain ⟨rfl, rfl⟩ := Prod.mk.inj (Option.some.inj h)
        exact ⟨le_rfl, by omega, t, ht, rfl, hmaps⟩
      rintro ⟨hkj, -, u, hu, rfl, -⟩
      rcases eq_or_lt_of_le hkj with rfl | hlt
      · rw [hhere hu]
      · rw [kernelTable_beyond ht (kid_of_maps hmaps) hlt] at hu
        cases hu
    · rw [if_neg hmaps]
      have hnext : (∃ u, kernelTable mem (cr3 / 0x1000) (pgIndex a) j = some u ∧
          mem u (pgIndex a j) = e ∧ maps j e = true) → k ≤ j → k + 1 ≤ j := by
        rintro ⟨u, hu, rfl, hm⟩ hkj
        rcases eq_or_lt_of_le hkj with rfl | hlt
        · rw [hhere hu] at hm
          exact absurd hm hmaps
        · exact hlt
      by_cases hlead : leads k (mem t (pgIndex a k)) = true
      · have hk3 : k < 3 := by
          refine Nat.lt_of_le_of_ne (by omega) ?_
          rintro rfl
          simp only [leads, Bool.and_eq_true] at hlead
          rw [maps_three] at hmaps
          exact hmaps hlead.1
        have hsucc : kernelTable mem (cr3 / 0x1000) (pgIndex a) (k + 1) =
            some (tableOf (mem t (pgIndex a k))) := by
          rw [Descent.tableAt_succ]
          exact ⟨t, ht, if_pos ⟨hk3, hlead⟩⟩
        rw [if_pos hlead, ih (by omega) hsucc]
        exact ⟨fun h => ⟨by omega, h.2⟩, fun h => ⟨hnext h.2.2 h.1, h.2⟩⟩
      · rw [if_neg hlead]
        refine ⟨fun h => Option.noConfusion rfl (heq_of_eq h), fun h => ?_⟩
        obtain ⟨u, hu, -⟩ := h.2.2
        have hnone : kid k (mem t (pgIndex a k)) = none := if_neg fun hc => hlead hc.2
        rw [kernelTable_beyond ht hnone (hnext h.2.2 h.1)] at hu
        cases hu

/-- The walk of the processor ends at a leaf on the path of the address. -/
theorem pgWalk_iff : pgWalk mem cr3 a = some (k, e) ↔ k ≤ 3 ∧
    ∃ t, kernelTable mem (cr3 / 0x1000) (pgIndex a) k = some t ∧ mem t (pgIndex a k) = e ∧
      maps k e = true := by
  have h := @pgWalkFrom_iff mem cr3 a k e 4 0 (cr3 / 0x1000) rfl rfl
  rw [pgWalk, h]
  simp

theorem pgWalk_at (hk : k ≤ 3) (ht : kernelTable mem (cr3 / 0x1000) (pgIndex a) k = some t)
    (hkid : kid k (mem t (pgIndex a k)) = none) :
    pgWalk mem cr3 a =
      if maps k (mem t (pgIndex a k)) then some (k, mem t (pgIndex a k)) else none := by
  by_cases hmaps : maps k (mem t (pgIndex a k)) = true
  · rw [if_pos hmaps]
    exact pgWalk_iff.mpr ⟨hk, t, ht, rfl, hmaps⟩
  rw [if_neg hmaps]
  rcases hwalk : pgWalk mem cr3 a with _ | ⟨j, e⟩
  · rfl
  exfalso
  obtain ⟨-, u, hu, rfl, hm⟩ := pgWalk_iff.mp hwalk
  rcases Nat.lt_trichotomy j k with hlt | rfl | hgt
  · rw [kernelTable_beyond hu (kid_of_maps hm) hlt] at ht
    cases ht
  · obtain rfl := Option.some.inj (hu.symm.trans ht)
    exact hmaps hm
  · rw [kernelTable_beyond ht hkid hgt] at hu
    cases hu

/-! ## Entries -/

theorem frameOf_or (x : Nat) {b : Nat} (hb : b < 0x1000) : frameOf (x ||| b) = frameOf x := by
  have hdiv : (x ||| b) / 0x1000 = x / 0x1000 := by
    rw [show (0x1000 : Nat) = 2 ^ 12 from rfl, ← Nat.shiftRight_eq_div_pow,
      Nat.shiftRight_or_distrib, Nat.shiftRight_eq_div_pow b, Nat.div_eq_of_lt hb, Nat.or_zero,
      Nat.shiftRight_eq_div_pow]
  rw [frameOf, frameOf, hdiv]

theorem leafBits_lt (type : Nat) (globalPage largePage : Bool) :
    leafBits type globalPage largePage < 0x1000 := by
  rw [leafBits]
  rcases isUncached type with _ | _ <;> rcases globalPage with _ | _ <;>
    rcases largePage with _ | _ <;> decide

theorem testBit_leafBits (type : Nat) (globalPage largePage : Bool) :
    (leafBits type globalPage largePage).testBit 0 = true ∧
      (largePage = true → (leafBits type globalPage largePage).testBit 7 = true) ∧
      (isUncached type = true → (leafBits type globalPage largePage).testBit 3 = true ∧
        (leafBits type globalPage largePage).testBit 4 = true) := by
  rw [leafBits]
  rcases isUncached type with _ | _ <;> rcases globalPage with _ | _ <;>
    rcases largePage with _ | _ <;> decide

theorem leaf_bits (x type : Nat) (globalPage largePage : Bool) :
    present (x ||| leafBits type globalPage largePage) = true ∧
      (largePage = true → large (x ||| leafBits type globalPage largePage) = true) ∧
      (isUncached type = true → uncached (x ||| leafBits type globalPage largePage) = true) := by
  obtain ⟨h0, h7, h34⟩ := testBit_leafBits type globalPage largePage
  refine ⟨?_, fun h => ?_, fun h => ?_⟩
  · rw [present, Nat.testBit_or, h0, Bool.or_true]
  · simp [large, h7 h]
  · rw [uncached, Nat.testBit_or, Nat.testBit_or, (h34 h).1, (h34 h).2, Bool.or_true, Bool.or_true]
    rfl

theorem or_uncached (e : Nat) : uncached (e ||| 0x18) = true ∧ present (e ||| 0x18) = present e ∧
    frameOf (e ||| 0x18) = frameOf e := by
  refine ⟨?_, ?_, frameOf_or e (by decide)⟩
  · rw [uncached, Nat.testBit_or, Nat.testBit_or, show Nat.testBit 0x18 3 = true from rfl,
      show Nat.testBit 0x18 4 = true from rfl, Bool.or_true, Bool.or_true]
    rfl
  · rw [present, Nat.testBit_or, show Nat.testBit 0x18 0 = false from rfl, Bool.or_false]
    rfl

/-- The same entry, up to the flags that were used or are global. -/
def SameEntry (e e' : Nat) : Prop := e' ||| 0x160 = e ||| 0x160

section

variable {e : Nat} (h : SameEntry e e')
include h

theorem SameEntry.testBit {i : Nat} (hi : Nat.testBit 0x160 i = false) :
    e'.testBit i = e.testBit i := by
  have := congrArg (fun x => x.testBit i) h
  simpa only [Nat.testBit_or, hi, Bool.or_false] using this

theorem SameEntry.div : e' / 0x1000 = e / 0x1000 := by
  have hdiv : ∀ x : Nat, (x ||| 0x160) / 0x1000 = x / 0x1000 := by
    intro x
    rw [show (0x1000 : Nat) = 2 ^ 12 from rfl, ← Nat.shiftRight_eq_div_pow,
      Nat.shiftRight_or_distrib, show 0x160 >>> 12 = 0 from rfl, Nat.or_zero,
      Nat.shiftRight_eq_div_pow]
  rw [← hdiv e', ← hdiv e]
  exact congrArg (· / 0x1000) h

theorem SameEntry.maps_kid (k : Nat) :
    maps k e' = maps k e ∧ kid k e' = kid k e ∧ uncached e' = uncached e ∧
      frameOf e' = frameOf e := by
  have hpresent : present e' = present e := h.testBit rfl
  have hlarge : large e' = large e := h.testBit rfl
  refine ⟨by rw [maps, maps, hpresent, hlarge], ?_, ?_, by rw [frameOf, frameOf, h.div]⟩
  · rw [kid, kid, leads, leads, hpresent, hlarge, tableOf, tableOf, h.div]
  · rw [uncached, uncached, h.testBit rfl, h.testBit (i := 4) rfl]

end

/-! ## Paths of addresses -/

/-- The addresses that the kernel maps: all of the lower half, or what lies
behind the extended offset. -/
def physicalTop (extended : Bool) : Nat := if extended then 0x8000000000 else 0x800000000000

theorem lt_of_physicalTop (h : a < physicalTop extended) :
    a < 0x800000000000 := by
  cases extended with
  | true => exact lt_trans h (by decide)
  | false => exact h

theorem virt_true (h : a < 0x8000000000) : virt true a = 0xFFFFFF8000000000 + a := by
  have := Nat.two_pow_add_eq_or_of_lt (show a < 2 ^ 39 from h) 0x1FFFFFF
  rw [virt, if_pos rfl, Nat.or_comm]
  exact this.symm

theorem pgIndex_eq (a k : Nat) : pgIndex a k = a / span k % 512 := by
  rw [pgIndex, Nat.shiftRight_eq_div_pow, span]

theorem level_cases (hk : k ≤ 3) : k = 0 ∨ k = 1 ∨ k = 2 ∨ k = 3 := by omega

theorem pgIndex_virt_zero (h : a < physicalTop extended) :
    pgIndex (virt extended a) 0 = if extended then 511 else a >>> 39 := by
  rw [pgIndex_eq, show span 0 = 0x8000000000 from rfl]
  cases extended with
  | true =>
    have h : a < 0x8000000000 := h
    rw [virt_true h, if_pos rfl]
    omega
  | false =>
    have h : a < 0x800000000000 := h
    rw [if_neg (by decide), Nat.shiftRight_eq_div_pow]
    show a / 0x8000000000 % 512 = a / 0x8000000000
    omega

theorem pgIndex_virt (h : a < physicalTop extended) (hk : 0 < k) (hk3 : k ≤ 3) :
    pgIndex (virt extended a) k = pgIndex a k := by
  cases extended with
  | false => rfl
  | true =>
    rw [pgIndex_eq, pgIndex_eq, virt_true h]
    rcases level_cases hk3 with rfl | rfl | rfl | rfl
    · cases hk
    · show (0xFFFFFF8000000000 + a) / 0x40000000 % 512 = a / 0x40000000 % 512
      omega
    · show (0xFFFFFF8000000000 + a) / 0x200000 % 512 = a / 0x200000 % 512
      omega
    · show (0xFFFFFF8000000000 + a) / 0x1000 % 512 = a / 0x1000 % 512
      omega

/-- Addresses that go through the same entry lie in one page of its level, and
in the same half. -/
theorem page_of_agree {x y : Bool} (ha : a < physicalTop x) (hb : b < physicalTop y) (hk : k ≤ 3)
    (h : Agree (pgIndex (virt x a)) (pgIndex (virt y b)) (k + 1)) :
    x = y ∧ a / span k = b / span k := by
  have htop := h 0 (Nat.succ_pos k)
  rw [pgIndex_virt_zero ha, pgIndex_virt_zero hb, Nat.shiftRight_eq_div_pow,
    Nat.shiftRight_eq_div_pow] at htop
  have hlower : ∀ j, 0 < j → j ≤ k → a / span j % 512 = b / span j % 512 := by
    intro j hj hjk
    have := h j (Nat.lt_succ_of_le hjk)
    rwa [pgIndex_virt ha hj (by omega), pgIndex_virt hb hj (by omega), pgIndex_eq,
      pgIndex_eq] at this
  have hhalf : x = y ∧ a / 0x8000000000 = b / 0x8000000000 := by
    cases x <;> cases y <;>
      simp only [physicalTop, if_true, if_false, true_and, reduceCtorEq] at ha hb htop ⊢ <;>
      omega
  refine ⟨hhalf.1, ?_⟩
  have h0 := hhalf.2
  have h1 : 1 ≤ k → a / 0x40000000 % 512 = b / 0x40000000 % 512 := hlower 1 (by decide)
  have h2 : 2 ≤ k → a / 0x200000 % 512 = b / 0x200000 % 512 := hlower 2 (by decide)
  have h3 : 3 ≤ k → a / 0x1000 % 512 = b / 0x1000 % 512 := hlower 3 (by decide)
  rcases level_cases hk with rfl | rfl | rfl | rfl
  · exact h0
  · have h1 := h1 (by decide)
    show a / 0x40000000 = b / 0x40000000
    omega
  · show a / 0x200000 = b / 0x200000
    omega
  · show a / 0x1000 = b / 0x1000
    omega

theorem agree_of_page {x : Bool} (ha : a < physicalTop x) (hb : b < physicalTop x) (hk : k ≤ 3)
    (h : a / span k = b / span k) : Agree (pgIndex (virt x a)) (pgIndex (virt x b)) (k + 1) := by
  have hzero : a / 0x8000000000 = b / 0x8000000000 := by
    rcases level_cases hk with rfl | rfl | rfl | rfl
    all_goals
      simp only [span] at h
      omega
  intro j hj
  rcases Nat.eq_zero_or_pos j with rfl | hpos
  · rw [pgIndex_virt_zero ha, pgIndex_virt_zero hb, Nat.shiftRight_eq_div_pow,
      Nat.shiftRight_eq_div_pow, hzero]
  · rw [pgIndex_virt ha hpos (by omega), pgIndex_virt hb hpos (by omega), pgIndex_eq, pgIndex_eq]
    rcases level_cases hk with rfl | rfl | rfl | rfl <;>
      rcases level_cases (show j ≤ 3 by omega) with rfl | rfl | rfl | rfl <;>
      simp only [span] at h ⊢ <;> omega

theorem physical_leaf {v : Nat} (hb : b < 0x800000000000) (hk : k ≤ 3) (hbits : v < 0x1000)
    (h : a / span k = b / span k) : physical k (b / span k * span k ||| v) a = a := by
  rw [physical, frameOf_or _ hbits, ← h]
  rcases level_cases hk with rfl | rfl | rfl | rfl
  all_goals
    simp only [span, frameOf] at h ⊢
    omega

variable {K : PgSettings} {s s' s0 : KernelPages} {T : Nat → Prop} {a k e t v type : Nat}
  {p : Nat → Nat}

/-! ## The allocators -/

/-- The start of the heap: `heap_map` ends where the first block begins. -/
structure HeapOk (h : StaticHeap) : Prop where
  aligned : h.map % 0x1000 = 0
  pos : 0 < h.map
  mapSize : 0x1000 ≤ h.mapSize
  first : h.first.testBit 0 = false → h.first = h.map + h.mapSize
  le : h.first ≤ h.second
  top : h.second < 0x100000000

/-- Where the first block of the heap ends, without the bit for used blocks. -/
def StaticHeap.blockEnd (h : StaticHeap) : Nat := h.second / 2 * 2

/-- A frame that is not given out: it is in use, and outside the part of the
heap that static pages come from. -/
structure Reserved (s : KernelPages) (f : Nat) : Prop where
  used : s.mm.mmReady = true → frameUsed s.mm.mmBitmap f = true
  outside : f * 0x1000 < s.heap.map ∨ s.heap.blockEnd ≤ f * 0x1000

/-- The allocators, with frames that are taken. -/
structure Holds (s : KernelPages) (T : Nat → Prop) : Prop where
  heap : HeapOk s.heap
  hint : s.mm.mmReady = true → HintCovers s.mm
  whole_pages : s.mm.mmReady = true → 0x1000 ∣ s.mm.mmBitmapSize
  static : s.mm.mmReady = true → ∀ f, s.heap.map ≤ f * 0x1000 → f * 0x1000 < s.heap.blockEnd →
    frameUsed s.mm.mmBitmap f = true
  reserved : ∀ t, T t → Reserved s t

section

variable (h : Holds s T)
include h

theorem Holds.mm {mm : MmState} (hready : mm.mmReady = s.mm.mmReady)
    (hhint : s.mm.mmReady = true → HintCovers mm) (hsize : mm.mmBitmapSize = s.mm.mmBitmapSize)
    (hused : ∀ f, frameUsed s.mm.mmBitmap f = true → frameUsed mm.mmBitmap f = true) :
    Holds { s with mm := mm } T where
  heap := h.heap
  hint := fun hr => hhint (hready ▸ hr)
  whole_pages := fun hr => by
    rw [hsize]
    exact h.whole_pages (hready ▸ hr)
  static := fun hr f h1 h2 => hused f (h.static (hready ▸ hr) f h1 h2)
  reserved := fun t ht => ⟨fun hr => hused t ((h.reserved t ht).used (hready ▸ hr)),
    (h.reserved t ht).outside⟩

theorem Holds.congr {T' : Nat → Prop} (hmm : s'.mm = s.mm) (hheap : s'.heap = s.heap)
    (hT : ∀ t, T' t → T t) : Holds s' T' := by
  refine ⟨hheap ▸ h.heap, hmm ▸ h.hint, hmm ▸ h.whole_pages, ?_, fun t ht => ?_⟩
  · rw [hmm, hheap]
    exact h.static
  · obtain ⟨h1, h2⟩ := h.reserved t (hT t ht)
    exact ⟨hmm ▸ h1, hheap ▸ h2⟩

theorem Holds.mmAlloc {r : Nat × MmState} (hr : r = mmAllocPages s.mm .addr32 0) :
    Holds { s with mm := r.2 } T ∧ (r.1 = 0 ∨ ∃ f, r.1 = f * 0x1000 ∧ f ≠ 0 ∧ ¬ T f ∧
      Reserved { s with mm := r.2 } f) := by
  rcases hready : s.mm.mmReady with _ | _
  · have hnone : r = (0, s.mm) := by rw [hr, mmAllocPages, hready]; rfl
    rw [hnone]
    exact ⟨h, .inl rfl⟩
  have hdvd : 0x400 ∣ 8 * s.mm.mmBitmapSize :=
    Dvd.dvd.trans (Dvd.dvd.trans (by decide) (h.whole_pages hready)) (Nat.dvd_mul_left _ 8)
  have hspec : Allocates s.mm .addr32 1 r := by
    rw [hr]
    exact mmAllocPages_spec hready (h.hint hready) hdvd .addr32
      (show mmGetCount (0 : Int) ≠ 0 by decide)
  obtain ⟨hhint, hout⟩ := hspec
  rcases hout with ⟨h0, htaken, -⟩ | ⟨f, hf, hsuit, htaken⟩
  · exact ⟨h.mm htaken.ready (fun _ => hhint) htaken.size fun g hg => by
      rw [htaken.used, hg, Bool.true_or], .inl h0⟩
  have hfree := hsuit.free f le_rfl (Nat.lt_succ_self f)
  have hnot : ∀ {P : Prop}, frameUsed s.mm.mmBitmap f = true → P := by
    intro P hu
    rw [hfree] at hu
    cases hu
  refine ⟨h.mm htaken.ready (fun _ => hhint) htaken.size fun g hg => by
    rw [htaken.used, hg, Bool.true_or], .inr ⟨f, hf, Nat.pos_iff_ne_zero.mp hsuit.frame_pos,
      fun ht => hnot ((h.reserved f ht).used hready), fun _ => ?_, ?_⟩⟩
  · simp [htaken.used]
  by_cases hmap : f * 0x1000 < s.heap.map
  · exact .inl hmap
  · refine .inr ?_
    by_contra hend
    exact hnot (h.static hready f (Nat.le_of_not_lt hmap) (Nat.lt_of_not_le hend))

/-- `heap_alloc_static_page` gives nothing, or the frame that `heap_map` was
in. -/
theorem Holds.heapAlloc {r : Nat × StaticHeap} (hr : r = heapAllocStaticPage s.heap) :
    Holds { s with heap := r.2 } T ∧ (r.1 = 0 ∨ ∃ f, r.1 = f * 0x1000 ∧ f ≠ 0 ∧ ¬ T f ∧
      Reserved { s with heap := r.2 } f) := by
  rw [heapAllocStaticPage] at hr
  split at hr
  · rw [hr]
    exact ⟨h, .inl rfl⟩
  rename_i hfree
  have hok := h.heap
  have hfirst := hok.first (by simpa using hfree)
  have hsize := hok.mapSize
  have hle := hok.le
  have htop := hok.top
  have haligned := hok.aligned
  have hpos := hok.pos
  split at hr
  · rw [hr]
    exact ⟨h, .inl rfl⟩
  obtain ⟨f, hf⟩ : ∃ f, f = s.heap.map / 0x1000 := ⟨_, rfl⟩
  have hmap : s.heap.map = f * 0x1000 := by omega
  have hend : f * 0x1000 < s.heap.blockEnd := by
    rw [StaticHeap.blockEnd]
    omega
  rw [hr]
  refine ⟨⟨⟨?_, ?_, hsize, fun _ => ?_, ?_, htop⟩, h.hint, h.whole_pages, ?_, ?_⟩,
    .inr ⟨f, hmap, by omega, fun ht => ?_, fun hready => h.static hready f (by omega) hend, ?_⟩⟩
  · show (s.heap.map + 0x1000) % 0x1000 = 0
    omega
  · show 0 < s.heap.map + 0x1000
    omega
  · show (s.heap.map + 0x1000 + s.heap.mapSize) % 0x100000000 = s.heap.map + 0x1000 + s.heap.mapSize
    omega
  · show (s.heap.map + 0x1000 + s.heap.mapSize) % 0x100000000 ≤ s.heap.second
    omega
  · intro hready g hg hg'
    have hg : s.heap.map + 0x1000 ≤ g * 0x1000 := hg
    exact h.static hready g (by omega) hg'
  · intro t ht
    obtain ⟨h1, h2⟩ := h.reserved t ht
    exact ⟨h1, h2.imp_left fun hlt => Nat.lt_of_lt_of_le hlt (Nat.le_add_right _ _)⟩
  · rcases (h.reserved f ht).outside with hlt | hge
    · omega
    · omega
  · refine .inl ?_
    show f * 0x1000 < s.heap.map + 0x1000
    omega

/-- **Allocation of a table**: nothing, or a frame that is not taken, which
is cleared. -/
theorem Holds.allocStatic :
    ((pgAllocStaticPage s).1 = 0 ∧ (pgAllocStaticPage s).2.mem = s.mem ∧
        Holds (pgAllocStaticPage s).2 T) ∨
      ∃ f, (pgAllocStaticPage s).1 = f * 0x1000 ∧ f ≠ 0 ∧ ¬ T f ∧
        (pgAllocStaticPage s).2.mem = update s.mem f (fun _ => 0) ∧
        Holds (pgAllocStaticPage s).2 fun t => t = f ∨ T t := by
  obtain ⟨m, hm⟩ : ∃ m, m = if s.pgReady then mmAllocPages s.mm .addr32 0 else (0, s.mm) :=
    ⟨_, rfl⟩
  have hmm : Holds { s with mm := m.2 } T ∧ (m.1 = 0 ∨ ∃ f, m.1 = f * 0x1000 ∧ f ≠ 0 ∧ ¬ T f ∧
      Reserved { s with mm := m.2 } f) := by
    rw [hm]
    split
    · exact h.mmAlloc rfl
    · exact ⟨h, .inl rfl⟩
  -- A frame that was given out is taken from now on.
  have htake : ∀ {s1 : KernelPages} {f : Nat}, Holds s1 T → Reserved s1 f →
      Holds (s1.zeroFrame f) fun t => t = f ∨ T t := by
    intro s1 f h1 hf
    refine ⟨h1.heap, h1.hint, h1.whole_pages, h1.static, fun t ht => ?_⟩
    rcases ht with rfl | ht
    · exact ⟨hf.used, hf.outside⟩
    · exact ⟨(h1.reserved t ht).used, (h1.reserved t ht).outside⟩
  unfold pgAllocStaticPage
  simp only [← hm]
  obtain ⟨h1, hout⟩ := hmm
  by_cases hzero : m.1 = 0
  · rw [if_neg (not_not.mpr hzero)]
    obtain ⟨h2, hheap⟩ := h1.heapAlloc rfl
    by_cases hnone : (heapAllocStaticPage s.heap).1 = 0
    · rw [if_neg (not_not.mpr hnone)]
      exact .inl ⟨rfl, rfl, h2⟩
    rw [if_pos hnone]
    obtain ⟨f, hf, hf0, hfresh, hres⟩ := hheap.resolve_left hnone
    have hdiv : (heapAllocStaticPage s.heap).1 / 0x1000 = f := by
      rw [hf]
      omega
    rw [hdiv]
    exact .inr ⟨f, hf, hf0, hfresh, rfl, htake h2 hres⟩
  · rw [if_pos hzero]
    obtain ⟨f, hf, hf0, hfresh, hres⟩ := hout.resolve_left hzero
    have hdiv : m.1 / 0x1000 = f := by omega
    rw [hdiv]
    exact .inr ⟨f, hf, hf0, hfresh, rfl, htake h1 hres⟩

end

/-! ## The invariant -/

def IsTable (K : PgSettings) (mem : PageMem) (t : Nat) : Prop :=
  ∃ q j, kernelTable mem (K.pgKernel / 0x1000) q j = some t

/-- What a leaf shows: the page itself, apart from the two special pages. The
slot of `pg_read_memory` shows any page, and the page for the registers of the
local APIC shows these, without caching. -/
def Shows (K : PgSettings) (extended : Bool) (a k e : Nat) : Prop :=
  if k = 3 ∧ a = K.pgRwVaddr ∧ extended = false then True
  else if k = 3 ∧ a = K.pgApicBaseVaddr then
    frameOf e = frameOf K.apicBaseAddr ∧ uncached e = true
  else physical k e a = a

theorem shows_of_physical {x : Bool} (h : physical k e a = a)
    (hne : ¬ (k = 3 ∧ a = K.pgApicBaseVaddr)) : Shows K x a k e := by
  rw [Shows]
  split
  · trivial
  · exact h

theorem Shows.congr {x : Bool} {e' : Nat} (h : Shows K x a k e) (hframe : frameOf e' = frameOf e)
    (hcache : uncached e = true → uncached e' = true) : Shows K x a k e' := by
  rw [Shows] at h ⊢
  split
  · trivial
  rename_i hrw
  rw [if_neg hrw] at h
  split
  · rename_i hapic
    rw [if_pos hapic] at h
    exact ⟨hframe.trans h.1, hcache h.2⟩
  · rename_i hapic
    rw [if_neg hapic] at h
    rwa [physical, hframe]

/-- The tables are apart and held, and show what they should. -/
structure KernelInv (K : PgSettings) (s : KernelPages) : Prop where
  separate : Separate kid s.mem (K.pgKernel / 0x1000)
  holds : Holds s (IsTable K s.mem)
  shows : ∀ (extended : Bool) (a k e : Nat), a % 0x1000 = 0 → a < physicalTop extended →
    pgWalk s.mem K.pgKernel (virt extended a) = some (k, e) → Shows K extended a k e

theorem write_entry (s : KernelPages) (t i v f j : Nat) :
    (s.write t i v).mem f j = if f = t ∧ j = i then v else s.mem f j := by
  simp only [KernelPages.write]
  by_cases hf : f = t
  · subst hf
    by_cases hj : j = i
    · simp [hj]
    · simp [hj]
  · simp [hf]

section Leaf

variable (hsep : Separate kid s.mem (K.pgKernel / 0x1000))
  (hat : kernelTable s.mem (K.pgKernel / 0x1000) p k = some t)

include hsep hat

theorem write_tables (hkid : kid k v = kid k (s.mem t (p k))) (q : Nat → Nat) (j : Nat) :
    kernelTable (s.write t (p k) v).mem (K.pgKernel / 0x1000) q j =
      kernelTable s.mem (K.pgKernel / 0x1000) q j := by
  refine Descent.tableAt_write hsep hat (fun f i hne => ?_) ?_ q j
  · rw [write_entry, if_neg hne]
  · rwa [write_entry, if_pos ⟨rfl, rfl⟩]

theorem write_other (hkid : kid k v = kid k (s.mem t (p k)))
    (hne : ¬ Agree (pgIndex a) p (k + 1)) :
    pgWalk (s.write t (p k) v).mem K.pgKernel a = pgWalk s.mem K.pgKernel a := by
  have hentry : ∀ {j u : Nat}, kernelTable s.mem (K.pgKernel / 0x1000) (pgIndex a) j = some u →
      (s.write t (p k) v).mem u (pgIndex a j) = s.mem u (pgIndex a j) := by
    intro j u hu
    rw [write_entry, if_neg]
    rintro ⟨rfl, hi⟩
    obtain rfl := hsep.level hu hat
    exact hne ((hsep.path hu hat).succ hi)
  refine Option.ext fun ⟨j, e⟩ => ?_
  rw [pgWalk_iff, pgWalk_iff]
  refine and_congr_right fun _ => exists_congr fun u => ?_
  rw [write_tables hsep hat hkid]
  refine and_congr_right fun hu => ?_
  rw [hentry hu]

theorem write_here (hk : k ≤ 3) (hkid : kid k v = kid k (s.mem t (p k))) (hnone : kid k v = none)
    (hagree : Agree (pgIndex a) p (k + 1)) :
    pgWalk (s.write t (p k) v).mem K.pgKernel a = if maps k v then some (k, v) else none := by
  have hindex : pgIndex a k = p k := hagree k (Nat.lt_succ_self k)
  have hentry : (s.write t (p k) v).mem t (pgIndex a k) = v := by
    rw [write_entry, if_pos ⟨rfl, hindex⟩]
  have hat' : kernelTable (s.write t (p k) v).mem (K.pgKernel / 0x1000) (pgIndex a) k = some t := by
    rw [write_tables hsep hat hkid]
    exact (Descent.tableAt_agree (hagree.mono (Nat.le_succ k))).trans hat
  rw [pgWalk_at hk hat' (by rw [hentry]; exact hnone), hentry]

omit hsep in
theorem walk_before (hk : k ≤ 3) (hnone : kid k (s.mem t (p k)) = none)
    (hagree : Agree (pgIndex a) p (k + 1)) :
    pgWalk s.mem K.pgKernel a =
      if maps k (s.mem t (p k)) then some (k, s.mem t (p k)) else none := by
  have hindex : pgIndex a k = p k := hagree k (Nat.lt_succ_self k)
  have hat' : kernelTable s.mem (K.pgKernel / 0x1000) (pgIndex a) k = some t :=
    (Descent.tableAt_agree (hagree.mono (Nat.le_succ k))).trans hat
  rw [pgWalk_at hk hat' (by rw [hindex]; exact hnone), hindex]

end Leaf

theorem KernelInv.write (h : KernelInv K s)
    (hat : kernelTable s.mem (K.pgKernel / 0x1000) p k = some t)
    (hkid : kid k v = kid k (s.mem t (p k)))
    (hshows : maps k v = true → ∀ (x : Bool) (a : Nat), a % 0x1000 = 0 → a < physicalTop x →
      Agree (pgIndex (virt x a)) p (k + 1) → Shows K x a k v) :
    KernelInv K (s.write t (p k) v) := by
  have hsame := write_tables h.separate hat hkid
  refine ⟨h.separate.congr hsame, h.holds.congr rfl rfl ?_, fun x a j e ha hlt hwalk => ?_⟩
  · rintro u ⟨q, j, hu⟩
    exact ⟨q, j, (hsame q j).symm.trans hu⟩
  obtain ⟨hj, u, hu, he, hm⟩ := pgWalk_iff.mp hwalk
  rw [hsame] at hu
  rw [write_entry] at he
  split at he
  · rename_i hhere
    obtain ⟨rfl, hi⟩ := hhere
    obtain rfl := h.separate.level hu hat
    subst he
    exact hshows hm x a ha hlt ((h.separate.path hu hat).succ hi)
  · exact h.shows x a j e ha hlt (pgWalk_iff.mpr ⟨hj, u, hu, he, hm⟩)

theorem link_entry {f : Nat} (k : Nat) :
    present (f * 0x1000 ||| 0x23) = true ∧ large (f * 0x1000 ||| 0x23) = false ∧
      tableOf (f * 0x1000 ||| 0x23) = f ∧ (k < 3 → maps k (f * 0x1000 ||| 0x23) = false) := by
  have hpresent : present (f * 0x1000 ||| 0x23) = true := by
    rw [present, testBit_or_page f _ 0 (by omega)]
    rfl
  have hlarge : large (f * 0x1000 ||| 0x23) = false := by
    rw [large, testBit_or_page f _ 7 (by omega)]
    rfl
  refine ⟨hpresent, hlarge, tableOf_or f (by omega), fun hk => ?_⟩
  simp only [maps, hlarge, Bool.and_false, Bool.or_false, Bool.and_eq_false_iff, beq_eq_false_iff_ne]
  omega

section Link

variable {root f : Nat}
  (hentry : ∀ g i, mem' g i = if g = t ∧ i = p k then f * 0x1000 ||| 0x23 else if g = f then 0 else mem g i)
  (hsep : Separate kid mem root) (hat : kernelTable mem root p k = some t)
  (hfresh : ∀ q j, kernelTable mem root q j ≠ some f) (habsent : present (mem t (p k)) = false)
  (hk : k < 3)

include hentry hsep hat hfresh habsent hk

theorem link_tables : Separate kid mem' root ∧ ∀ (q : Nat → Nat) {j u : Nat},
    kernelTable mem' root q j = some u ↔
      kernelTable mem root q j = some u ∨ j = k + 1 ∧ u = f ∧ Agree q p (k + 1) := by
  obtain ⟨hpres, hlarge, htable, -⟩ := @link_entry f k
  have hne : t ≠ f := fun hc => hfresh p k (hc ▸ hat)
  -- Clearing the frame clears no table.
  have hcleared : ∀ q j, kernelTable (update mem f fun _ => 0) root q j =
      kernelTable mem root q j := by
    refine fun q j => Descent.tableAt_same q fun i _ g hg => ?_
    rw [update_of_ne]
    rintro rfl
    exact hfresh q i hg
  have hother : ∀ g i, ¬ (g = t ∧ i = p k) →
      mem' g i = update mem f (fun _ => 0) g i := by
    intro g i hc
    rw [hentry, if_neg hc]
    by_cases hg : g = f
    · subst hg
      simp
    · rw [if_neg hg, update_of_ne hg]
  have hold : kid k (update mem f (fun _ => 0) t (p k)) = none := by
    rw [update_of_ne hne]
    exact kid_of_absent habsent
  have hkid : kid k (mem' t (p k)) = some f := by
    rw [hentry, if_pos ⟨rfl, rfl⟩, kid, if_pos ⟨hk, by simp [leads, hpres, hlarge]⟩, htable]
  have hempty : ∀ i j, kid j (mem' f i) = none := fun i j => by
    rw [hentry, if_neg fun hc => hne hc.1.symm, if_pos rfl]
    exact kid_of_absent rfl
  have hsep1 := hsep.congr hcleared
  have hat1 := (hcleared p k).trans hat
  refine ⟨hsep1.link hat1 hother hold hkid hempty fun q j hq => ?_, fun q j u => ?_⟩
  · exact hfresh q j ((hcleared q j).symm.trans hq)
  · rw [← hcleared q j]
    exact Descent.tableAt_link hsep1 hat1 hother hold hkid hempty q

theorem link_walk {cr3 : Nat} (hroot : root = cr3 / 0x1000) (a : Nat) :
    pgWalk mem' cr3 a = pgWalk mem cr3 a := by
  obtain ⟨-, hlink⟩ := link_tables hentry hsep hat hfresh habsent hk
  obtain ⟨-, -, -, hleaf⟩ := @link_entry f k
  have hne : t ≠ f := fun hc => hfresh p k (hc ▸ hat)
  subst hroot
  refine Option.ext fun ⟨j, e⟩ => ?_
  rw [pgWalk_iff, pgWalk_iff]
  refine and_congr_right fun _ => ⟨?_, ?_⟩
  · rintro ⟨u, hu, he, hm⟩
    rw [hentry] at he
    rcases (hlink (pgIndex a)).mp hu with hu | ⟨-, rfl, -⟩
    · by_cases hhere : u = t ∧ pgIndex a j = p k
      · rw [if_pos hhere] at he
        obtain ⟨rfl, -⟩ := hhere
        obtain rfl := hsep.level hu hat
        rw [← he, hleaf hk] at hm
        cases hm
      · rw [if_neg hhere, if_neg fun hc => hfresh _ j (hc ▸ hu)] at he
        exact ⟨u, hu, he, hm⟩
    · rw [if_neg fun hc => hne hc.1.symm, if_pos rfl] at he
      rw [← he, maps_of_absent rfl] at hm
      cases hm
  · rintro ⟨u, hu, he, hm⟩
    refine ⟨u, (hlink (pgIndex a)).mpr (.inl hu), ?_, hm⟩
    rw [hentry, if_neg, if_neg fun hc => hfresh _ j (hc ▸ hu)]
    · exact he
    · rintro ⟨rfl, hi⟩
      rw [← he, hi, maps_of_absent habsent] at hm
      cases hm

end Link

/-- One level: the table is there, or an empty one is linked. No address is
mapped otherwise than before. -/
theorem KernelInv.enter (h : KernelInv K s) (hk : k < 3)
    (hat : kernelTable s.mem (K.pgKernel / 0x1000) p k = some t) {o : Option Nat}
    (hr : pgEnterStatic s t (p k) (k != 0) = (o, s')) :
    KernelInv K s' ∧ (∀ a, pgWalk s'.mem K.pgKernel a = pgWalk s.mem K.pgKernel a) ∧
      ∀ u, o = some u → kernelTable s'.mem (K.pgKernel / 0x1000) p (k + 1) = some u := by
  rw [pgEnterStatic] at hr
  split at hr
  · rename_i habsent
    have habsent : present (s.mem t (p k)) = false := by simpa using habsent
    rcases h.holds.allocStatic with ⟨h0, hmem, hholds⟩ | ⟨f, hf, hf0, hfresh, hmem, hholds⟩
    · rw [if_pos h0] at hr
      obtain ⟨rfl, rfl⟩ := Prod.mk.inj hr
      refine ⟨⟨by rw [hmem]; exact h.separate, by rw [hmem]; exact hholds, ?_⟩, ?_, nofun⟩
      · rw [hmem]
        exact h.shows
      · rw [hmem]
        exact fun _ => rfl
    · rw [if_neg (by omega)] at hr
      obtain ⟨ho, hs'⟩ := Prod.mk.inj hr
      rw [hf] at ho hs'
      have hentry : ∀ g i, s'.mem g i =
          if g = t ∧ i = p k then f * 0x1000 ||| 0x23 else if g = f then 0 else s.mem g i := by
        intro g i
        rw [← hs', write_entry, hmem]
        by_cases hg : g = f
        · subst hg
          simp
        · rw [if_neg hg, update_of_ne hg]
      have hfresh' : ∀ q j, kernelTable s.mem (K.pgKernel / 0x1000) q j ≠ some f :=
        fun q j hq => hfresh ⟨q, j, hq⟩
      obtain ⟨hsep, hlink⟩ := link_tables hentry h.separate hat hfresh' habsent hk
      have hwalk := link_walk hentry h.separate hat hfresh' habsent hk rfl
      refine ⟨⟨hsep, hholds.congr (by rw [← hs']; rfl) (by rw [← hs']; rfl) ?_, ?_⟩, hwalk,
        fun u hu => ?_⟩
      · rintro u ⟨q, j, hu⟩
        rcases (hlink q).mp hu with hu | ⟨-, rfl, -⟩
        · exact .inr ⟨q, j, hu⟩
        · exact .inl rfl
      · intro x a j e ha hlt hw
        exact h.shows x a j e ha hlt (by rw [← hwalk]; exact hw)
      · refine (hlink p).mpr (.inr ⟨rfl, ?_, fun _ _ => rfl⟩)
        rw [← ho, Option.some.injEq] at hu
        rw [← hu, write_entry, if_pos ⟨rfl, rfl⟩]
        exact tableOf_or f (by omega)
  · rename_i hpresent
    have hpresent : present (s.mem t (p k)) = true := by simpa using hpresent
    split at hr
    · obtain ⟨rfl, rfl⟩ := Prod.mk.inj hr
      exact ⟨h, fun _ => rfl, nofun⟩
    rename_i hsmall
    obtain ⟨rfl, rfl⟩ := Prod.mk.inj hr
    refine ⟨h, fun _ => rfl, fun u hu => ?_⟩
    have hlead : leads k (s.mem t (p k)) = true := by
      rw [leads, hpresent, Bool.true_and, Bool.not_eq_true']
      simpa using hsmall
    exact Descent.tableAt_succ.mpr ⟨t, hat, (if_pos ⟨hk, hlead⟩).trans hu⟩

end Dancy.Pg
