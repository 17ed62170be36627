import Dancy.Lib.Radix
import Dancy.Pg.Check

/-!
# Address spaces of a task

`pg_create`, `pg_delete`, the alternative address space, and mapping,
unmapping and protecting user pages. A task has one address space in
`pg_cr3` and, while a program is being loaded, the old one in
`pg_alt_cr3`. `cpuCr3` is the register of the processor the task runs on.
-/

namespace Dancy.Pg

open Dancy.Mm Dancy.Lib.Radix List

/-- `pg_kernel` and `pg_kernel_pde`. -/
structure PgKernel where
  (cr3 pde : Nat)
  aligned : cr3 % 0x1000 = 0

structure PgTask where
  pg : PgState
  (pgCr3 pgAltCr3 pgState taskCr3 cpuCr3 : Nat)

/-- The `DE_*` codes of these functions; the return value `0` is `none`. -/
inductive SpaceCode where
  | unexpected
  | memory
  | argument

/-- The number of values of `uint32_t`. -/
def wordTop : Nat := 0x100000000

/-! ## Page tables of a space -/

/-- The second half of `pg_create_cr3`: the three tables are cleared and
linked. The entries below `0x10000000` are those of the kernel. -/
def pgFillTables (K : PgKernel) (s : PgState) (pml4e pdpe pde : Nat) : PgState :=
  let s := s.zeroFrame (pml4e / 0x1000)
  let s := s.zeroFrame (pdpe / 0x1000)
  let s := s.zeroFrame (pde / 0x1000)
  let s := { s with
    mem := Function.update s.mem (pde / 0x1000) fun i =>
      if i < 128 then s.mem (K.pde / 0x1000) i else s.mem (pde / 0x1000) i }
  let s := s.write (pdpe / 0x1000) 0 (pde ||| 0x27)
  let s := s.write (pml4e / 0x1000) 0 (pdpe ||| 0x27)
  s.write (pml4e / 0x1000) 511 (s.mem (K.cr3 / 0x1000) 511)

/-- `pg_create_cr3`; `0` is NULL. -/
def pgCreateCr3 (K : PgKernel) (s : PgState) : Nat × PgState :=
  let pml4e := mmAllocPages s.mm .addr32 0
  let s := s.take pml4e
  if pml4e.1 = 0 then (0, s)
  else
    let pdpe := mmAllocPage s.mm
    let s := s.take pdpe
    if pdpe.1 = 0 then (0, s.freePage pml4e.1)
    else
      let pde := mmAllocPage s.mm
      let s := s.take pde
      if pde.1 = 0 then (0, (s.freePage pdpe.1).freePage pml4e.1)
      else (pml4e.1, pgFillTables K s pml4e.1 pdpe.1 pde.1)

/-- The body of the loop of `pg_free_pte`, with its count `r`. -/
def pgFreePteEntry (pte : Nat) (syncArctic : Bool) (r : Nat × PgState) (i : Nat) :
    Nat × PgState :=
  let e := r.2.mem pte i
  if e = 0 then r
  else if syncArctic && e.testBit 11 then (r.1 + 1, r.2.write pte i (e ^^^ 0x800))
  else
    let s := (r.2.write pte i 0).freePage (frameOf e * 0x1000)
    (r.1, { s with userMemory := s.userMemory - 0x1000 })

def pgFreePte (s : PgState) (pte : Nat) (syncArctic : Bool) : Nat × PgState :=
  (range 512).foldl (pgFreePteEntry pte syncArctic) (0, s)

/-- The body of the innermost loop of `pg_delete_cr3`. -/
def pgDeletePdeEntry (pde : Nat) (syncArctic : Bool) (s : PgState) (k : Nat) : PgState :=
  let e := s.mem pde k
  if !present e then s
  else if large e then s
  else
    let r := pgFreePte s (frameOf e) syncArctic
    if r.1 ≠ 0 then r.2 else (r.2.write pde k 0).freePage (frameOf e * 0x1000)

/-- The indices of the innermost loop: `k = (j > 0 ? 0 : 128)`. -/
def pdeIndices (j : Nat) : List Nat := if j > 0 then range 512 else range' 128 384

def pgDeletePdpeEntry (pdpe : Nat) (syncArctic : Bool) (s : PgState) (j : Nat) : PgState :=
  let e := s.mem pdpe j
  if !present e then s
  else if large e then s
  else
    let s := (pdeIndices j).foldl (pgDeletePdeEntry (frameOf e) syncArctic) s
    if syncArctic then s else (s.write pdpe j 0).freePage (frameOf e * 0x1000)

def pgDeletePml4Entry (pml4e : Nat) (syncArctic : Bool) (s : PgState) (i : Nat) : PgState :=
  let e := s.mem pml4e i
  if !present e then s
  else
    let s := (range 512).foldl (pgDeletePdpeEntry (frameOf e) syncArctic) s
    if syncArctic then s else (s.write pml4e i 0).freePage (frameOf e * 0x1000)

def pgDeleteCr3 (s : PgState) (cr3 : Nat) (syncArctic : Bool) : PgState :=
  let pml4e := cr3 / 0x1000
  let s := (range 256).foldl (pgDeletePml4Entry pml4e syncArctic) s
  if syncArctic then s else (s.zeroFrame pml4e).freePage (pml4e * 0x1000)

/-! ## The address space of the task -/

def pgEnterKernel (K : PgKernel) (T : PgTask) : PgTask :=
  { T with
    taskCr3 := K.cr3 % wordTop
    pgState := (T.pgState + 1) % wordTop
    cpuCr3 := if T.cpuCr3 / 0x1000 * 0x1000 = K.cr3 then T.cpuCr3 else K.cr3 }

/-- `cpu_sub32` of one. -/
def wordPred (n : Nat) : Nat := if n = 0 then wordTop - 1 else n - 1

def pgLeaveKernel (T : PgTask) : PgTask :=
  let T := { T with pgState := wordPred T.pgState }
  if T.pgState ≠ 0 then T
  else if T.pgCr3 = 0 then T
  else { T with taskCr3 := T.pgCr3, cpuCr3 := T.pgCr3 }

def pgCreate (K : PgKernel) (T : PgTask) : Option SpaceCode × PgTask :=
  if T.pgCr3 ≠ 0 then (some .unexpected, T)
  else
    match pgCreateCr3 K T.pg with
    | (0, s) => (some .memory, { T with pg := s })
    | (cr3, s) =>
      (none, { T with pg := s, pgCr3 := cr3 % wordTop, taskCr3 := cr3 % wordTop, cpuCr3 := cr3 })

def pgDelete (K : PgKernel) (T : PgTask) : PgTask :=
  if T.pgCr3 = 0 then T
  else
    let cr3 := T.pgCr3
    let T := { T with pgCr3 := 0, taskCr3 := K.cr3 % wordTop, cpuCr3 := K.cr3 }
    let T := { T with pg := pgDeleteCr3 T.pg cr3 false }
    if T.pgAltCr3 = 0 then T
    else
      let cr3 := T.pgAltCr3
      let T := { T with pgAltCr3 := 0 }
      { T with pg := pgDeleteCr3 T.pg cr3 false }

def pgAltCreate (K : PgKernel) (T : PgTask) : Option SpaceCode × PgTask :=
  if T.pgCr3 = 0 ∨ T.pgAltCr3 ≠ 0 then (some .unexpected, T)
  else
    let T := pgEnterKernel K T
    let r := pgCreateCr3 K T.pg
    let T := pgLeaveKernel { T with pg := r.2 }
    if r.1 = 0 then (some .memory, T)
    else
      (none, { T with
        pgAltCr3 := T.pgCr3, pgCr3 := r.1 % wordTop, taskCr3 := r.1 % wordTop, cpuCr3 := r.1 })

def pgAltAccept (K : PgKernel) (T : PgTask) : PgTask :=
  let cr3 := T.pgAltCr3
  if cr3 = 0 ∨ T.pgCr3 ≠ T.cpuCr3 then T
  else
    let T := { T with pgAltCr3 := 0 }
    let T := pgEnterKernel K T
    pgLeaveKernel { T with pg := pgDeleteCr3 T.pg cr3 false }

def pgAltDelete (K : PgKernel) (T : PgTask) : PgTask :=
  let cr3 := T.cpuCr3
  if T.pgAltCr3 = 0 ∨ T.pgCr3 ≠ cr3 then T
  else
    let T := { T with pgCr3 := T.pgAltCr3, pgAltCr3 := 0 }
    let T := pgEnterKernel K T
    pgLeaveKernel { T with pg := pgDeleteCr3 T.pg cr3 false }

/-! ## User pages -/

/-- A difference of two `addr_t`. -/
def addrSub (a b : Nat) : Nat := (a + (addrTop - b)) % addrTop

/-- The number of rounds of a loop that steps from one page to another. -/
def pagesBetween (vaddrBeg vaddrEnd : Nat) : Nat := addrSub vaddrEnd vaddrBeg / 0x1000

/-- The body of the loop of `pg_map_user`; `false` is the `break`. -/
def pgMapPage (s : PgState) (cr3 vaddr type : Nat) : Bool × PgState :=
  let r := mmAllocPage s.mm
  let s := s.take r
  if r.1 = 0 then (false, s)
  else
    let s := s.zeroFrame (r.1 / 0x1000)
    let s := { s with userMemory := s.userMemory + 0x1000 }
    match pgMapVirtual s cr3 vaddr r.1 type with
    | (true, s) =>
      let s := s.freePage r.1
      (false, { s with userMemory := s.userMemory - 0x1000 })
    | (false, s) => (true, s)

/-- The loop of `pg_map_user`, from the last page down. -/
def pgMapLoop (cr3 type : Nat) : Nat → PgState → Nat → Bool × PgState
  | 0, s, _ => (true, s)
  | n + 1, s, vaddrEnd =>
    match pgMapPage s cr3 (addrSub vaddrEnd 0x1000) type with
    | (true, s) => pgMapLoop cr3 type n s (addrSub vaddrEnd 0x1000)
    | (false, s) => (false, s)

/-- What `pg_map_user` and `pg_unmap_user` refuse. -/
def userRangeRefused (K : PgKernel) (T : PgTask) (vaddr size : Nat) : Prop :=
  T.cpuCr3 / 0x1000 * 0x1000 = K.cr3 ∨ T.cpuCr3 ≠ T.taskCr3 ∨ size = 0 ∨ vaddr < 0x10000000 ∨
    vaddr > (addrTop - 1 - size) + 1

instance (K : PgKernel) (T : PgTask) (vaddr size : Nat) :
    Decidable (userRangeRefused K T vaddr size) := by
  unfold userRangeRefused
  infer_instance

/-- `vaddr_beg` and `vaddr_end`. -/
def pageBeg (vaddr : Nat) : Nat := vaddr / 0x1000 * 0x1000
def pageEnd (vaddr size : Nat) : Nat :=
  (((vaddr + size) % addrTop + 0xFFF) % addrTop) / 0x1000 * 0x1000

/-- `pg_map_user`; `0` is NULL. -/
def pgMapUser (K : PgKernel) (T : PgTask) (vaddr size type : Nat) : Nat × PgTask :=
  let cr3 := T.cpuCr3
  if userRangeRefused K T vaddr size then (0, T)
  else
    let T := pgEnterKernel K T
    let vaddrEnd := pageEnd vaddr size
    let r := pgMapLoop cr3 type (pagesBetween (pageBeg vaddr) vaddrEnd) T.pg vaddrEnd
    (if r.1 then vaddr else 0, pgLeaveKernel { T with pg := r.2 })

/-- The body of the loop of `pg_unmap_user`. The address of the frame is
`*e & ~page_mask`. -/
def pgUnmapPage (s : PgState) (cr3 vaddr : Nat) : PgState :=
  match pgGetEntry s.mem cr3 vaddr with
  | none => s
  | some (t, i) =>
    let e := s.mem t i
    if !userBit e then s
    else
      let s := (s.write t i 0).freePage (e / 0x1000 * 0x1000)
      { s with userMemory := s.userMemory - 0x1000 }

def pgUnmapLoop (cr3 : Nat) : Nat → PgState → Nat → PgState
  | 0, s, _ => s
  | n + 1, s, vaddrBeg =>
    pgUnmapLoop cr3 n (pgUnmapPage s cr3 vaddrBeg) ((vaddrBeg + 0x1000) % addrTop)

def pgUnmapUser (K : PgKernel) (T : PgTask) (vaddr size : Nat) : Option SpaceCode × PgTask :=
  let cr3 := T.cpuCr3
  if userRangeRefused K T vaddr size then (some .argument, T)
  else
    let T := pgEnterKernel K T
    let s := pgUnmapLoop cr3 (pagesBetween (pageBeg vaddr) (pageEnd vaddr size)) T.pg
      (pageBeg vaddr)
    (none, pgLeaveKernel { T with pg := s })

/-- The new value of an entry in `pg_protect_user`. -/
def protectEntry (nxbit : Bool) (type e : Nat) : Nat :=
  let v := e ||| 0x003
  let v := if type &&& pgBlocked ≠ 0 then v ^^^ 0x001 else v
  let v := if type &&& pgReadonly ≠ 0 then v ^^^ 0x002 else v
  let v := v &&& 0x7FFFFFFFFFFFFFFF
  if type &&& pgNoexec ≠ 0 ∧ nxbit then v ||| 0x8000000000000000 else v

def pgProtectPage (s : PgState) (cr3 type vaddr : Nat) : PgState :=
  match pgGetEntry s.mem cr3 vaddr with
  | none => s
  | some (t, i) =>
    let e := s.mem t i
    if userBit e then s.write t i (protectEntry s.nxbit type e) else s

def pgProtectLoop (cr3 type : Nat) : Nat → PgState → Nat → PgState
  | 0, s, _ => s
  | n + 1, s, a =>
    pgProtectLoop cr3 type n (pgProtectPage s cr3 type a) ((a + 0x1000) % addrTop)

/-- `pg_protect_user`. The loop `do … while (a != e)` has at least one
round, and `e` is above `a` or `0`. -/
def pgProtectUser (K : PgKernel) (T : PgTask) (vaddr size type : Nat) : PgTask :=
  let e := (vaddr + (if size > 0 then size - 1 else 0)) % addrTop
  let cr3 := T.cpuCr3
  if size = 0 ∨ vaddr < 0x10000000 ∨ vaddr > e then T
  else
    let a := pageBeg vaddr
    let e := (pageBeg e + 0x1000) % addrTop
    let T := pgEnterKernel K T
    pgLeaveKernel { T with pg := pgProtectLoop cr3 type (pagesBetween a e) T.pg a }

/-! ## Address spaces as trees of frames -/

/-- The child an entry stands for: a page in the last level, else a table. -/
def pgKid : Nat → Nat → Option Nat
  | 0, e => if e = 0 then none else some (frameOf e)
  | 3, e => if present e then some (frameOf e) else none
  | _, e => if present e && !large e then some (frameOf e) else none

/-- The slots of the user. The first page directory of all shares its first
128 entries with the kernel. -/
def pgSlots : Nat → Nat → List Nat
  | 3, _ => range 256
  | 1, p => if p = 0 then range' 128 384 else range 512
  | _, _ => range 512

def pgShape : Shape Nat Nat where
  width := 512
  slots := pgSlots
  kid := pgKid
  slots_nodup := fun h p => by
    unfold pgSlots
    split
    · exact nodup_range
    · split
      · exact nodup_range'
      · exact nodup_range
    · exact nodup_range

theorem pgShape_slots : pgShape.slots = pgSlots := rfl

theorem mem_slots_three {p i : Nat} : i ∈ pgSlots 3 p ↔ i < 256 := mem_range

theorem mem_slots_two {p i : Nat} : i ∈ pgSlots 2 p ↔ i < 512 := mem_range

/-- The frames below and at the roots of some address spaces. -/
abbrev spaceNodes (mem : PageMem) (roots : List Nat) : List (Node Nat) :=
  forest pgShape mem 4 roots

def pageCount (ns : List (Node Nat)) : Nat := ns.countP fun x => x.height = 0

/-- What the kernel writes into a slot of the user. -/
def EntryOk : Nat → Nat → Prop
  | 0, e => e = 0 ∨ (userBit e = true ∧ e < 0x10000000000000000 ∧
      e % 0x8000000000000000 < 0x10000000000000)
  | _, e => e = 0 ∨ ∃ f, f < 0x10000000000 ∧ e = f * 0x1000 ||| 0x27

/-- The nodes are what was taken from the allocator and not given back. -/
structure Held (s : PgState) (ns : List (Node Nat)) : Prop where
  ready : s.mm.mmReady = true
  hint : HintCovers s.mm
  whole_pages : 0x1000 ∣ s.mm.mmBitmapSize
  size : s.mm.mmBitmapSize ≤ 0x100000000
  nodup : (frames ns).Nodup
  used : ∀ f ∈ frames ns, 0 < f ∧ f < 8 * s.mm.mmBitmapSize ∧ frameUsed s.mm.mmBitmap f = true
  log : s.taken.Perm (s.freed ++ frames ns)

/-- The frames behind the roots, and `extra`, are held once each. -/
structure Trees (s : PgState) (roots : List Nat) (extra : List (Node Nat)) : Prop where
  held : Held s (extra ++ spaceNodes s.mem roots)
  memory : s.userMemory = 0x1000 * pageCount (extra ++ spaceNodes s.mem roots)
  entries : ∀ h p t, ⟨h + 1, p, t⟩ ∈ spaceNodes s.mem roots → ∀ i ∈ pgSlots h p,
    EntryOk h (s.mem t i)

variable {s s' : PgState} {ns ns' : List (Node Nat)} {roots : List Nat}
  {extra : List (Node Nat)} {h p t i : Nat}

variable {f : Nat} {type : MmType} {r : Nat × MmState} {x : Node Nat}

theorem table_entry (hf : f < 0x10000000000) :
    present (f * 0x1000 ||| 0x27) = true ∧ large (f * 0x1000 ||| 0x27) = false ∧
      tableOf (f * 0x1000 ||| 0x27) = f ∧ frameOf (f * 0x1000 ||| 0x27) = f := by
  refine ⟨present_new f, ?_, tableOf_or f (by omega), ?_⟩
  · rw [large, testBit_or_page f _ 7 (by omega)]
    rfl
  · have hdiv := tableOf_or f (by omega : 0x27 < 0x1000)
    rw [tableOf] at hdiv
    rw [frameOf, hdiv]
    omega

theorem pgKid_table (h f : Nat) (hf : f < 0x10000000000) :
    pgKid (h + 1) (f * 0x1000 ||| 0x27) = some f := by
  obtain ⟨hpres, hlarge, -, hframe⟩ := table_entry hf
  have hne : ∀ e, present e = true → large e = false → pgKid (h + 1) e = some (frameOf e) := by
    intro e h1 h2
    unfold pgKid
    split
    · omega
    · rw [if_pos h1]
    · rw [h1, h2]
      rfl
  rw [hne _ hpres hlarge, hframe]

theorem pgKid_zero (h : Nat) : pgKid h 0 = none := by
  unfold pgKid
  split <;> simp [present]

theorem EntryOk.child {e : Nat} (he : EntryOk (h + 1) e) (hp : present e = true) :
    pgKid (h + 1) e = some (tableOf e) ∧ large e = false ∧ tableOf e = frameOf e := by
  rcases he with rfl | ⟨f, hf, rfl⟩
  · simp [present] at hp
  · obtain ⟨-, hlarge, htable, hframe⟩ := table_entry hf
    exact ⟨by rw [pgKid_table h f hf, htable], hlarge, by omega⟩

theorem EntryOk.absent {e : Nat} (he : EntryOk (h + 1) e) (hp : present e = false) : e = 0 := by
  rcases he with rfl | ⟨f, hf, rfl⟩
  · rfl
  · rw [(table_entry hf).1] at hp
    cases hp

section

variable (hh : Held s ns)
include hh

theorem Held.perm (hp : ns.Perm ns') : Held s ns' where
  ready := hh.ready
  hint := hh.hint
  whole_pages := hh.whole_pages
  size := hh.size
  nodup := (hp.map _).nodup_iff.mp hh.nodup
  used := fun f hf => hh.used f ((hp.map _).mem_iff.mpr hf)
  log := hh.log.trans ((hp.map _).append_left _)

theorem Held.congr (hmm : s'.mm = s.mm) (ht : s'.taken = s.taken) (hf : s'.freed = s.freed) :
    Held s' ns := by
  obtain ⟨h1, h2, h3, h4, h5, h6, h7⟩ := hh
  rw [← hmm] at h1 h2 h3 h4 h6
  rw [← ht, ← hf] at h7
  exact ⟨h1, h2, h3, h4, h5, h6, h7⟩

theorem Held.take_none (ha : Allocates s.mm type 1 r) (h0 : r.1 = 0) : Held (s.take r) ns := by
  obtain ⟨hhint, hout⟩ := ha
  rcases hout with ⟨-, htaken, -⟩ | ⟨f, hf, hsuit, -⟩
  · refine ⟨htaken.ready.trans hh.ready, hhint, ?_, ?_, hh.nodup, fun f hf => ?_, ?_⟩
    · simp only [PgState.take, htaken.size]
      exact hh.whole_pages
    · simp only [PgState.take, htaken.size]
      exact hh.size
    · obtain ⟨h1, h2, h3⟩ := hh.used f hf
      simp only [PgState.take, htaken.size, htaken.used, h3, Bool.true_or]
      exact ⟨h1, h2, trivial⟩
    · simp only [PgState.take, h0]
      exact hh.log
  · have hpos := hsuit.frame_pos
    omega

theorem Held.take_some (ha : Allocates s.mm type 1 r) (h0 : r.1 ≠ 0) (h key : Nat) :
    Held (s.take r) (⟨h, key, r.1 / 0x1000⟩ :: ns) ∧ r.1 = r.1 / 0x1000 * 0x1000 ∧
      0 < r.1 / 0x1000 ∧ r.1 / 0x1000 < 0x10000000000 ∧
      r.1 / 0x1000 < frameLimit s.mm type := by
  obtain ⟨hhint, hout⟩ := ha
  rcases hout with ⟨hz, -, -⟩ | ⟨f, hf, hsuit, htaken⟩
  · exact absurd hz h0
  have hdiv : r.1 / 0x1000 = f := by omega
  have hpos := hsuit.frame_pos
  have hin := hsuit.inside
  have hlim := hsuit.below
  have hsize := hh.size
  rw [hdiv]
  refine ⟨⟨htaken.ready.trans hh.ready, hhint, ?_, ?_, ?_, fun g hg => ?_, ?_⟩,
    hf, hpos, by omega, by omega⟩
  · simp only [PgState.take, htaken.size]
    exact hh.whole_pages
  · simp only [PgState.take, htaken.size]
    exact hh.size
  · refine nodup_cons.mpr ⟨fun hmem => ?_, hh.nodup⟩
    have hfree := hsuit.free f le_rfl (by omega)
    rw [(hh.used f hmem).2.2] at hfree
    cases hfree
  · simp only [PgState.take, htaken.size, htaken.used]
    rcases mem_cons.mp hg with rfl | hg
    · exact ⟨hpos, by omega, by simp⟩
    · obtain ⟨h1, h2, h3⟩ := hh.used g hg
      exact ⟨h1, h2, by rw [h3, Bool.true_or]⟩
  · simp only [PgState.take, if_neg h0, hdiv]
    exact (hh.log.cons f).trans perm_middle.symm

end

theorem Held.freePage (hh : Held s (x :: ns)) :
    Held (s.freePage (x.frame * 0x1000)) ns := by
  obtain ⟨hpos, hin, -⟩ := hh.used x.frame (by simp [frames])
  obtain ⟨hhint, hrel⟩ := mmFreePage_spec hh.ready hh.hint hpos hin
  have hnd := nodup_cons.mp hh.nodup
  refine ⟨hrel.ready.trans hh.ready, hhint, ?_, ?_, hnd.2, fun g hg => ?_, ?_⟩
  · simp only [PgState.freePage, hrel.size]
    exact hh.whole_pages
  · simp only [PgState.freePage, hrel.size]
    exact hh.size
  · obtain ⟨h1, h2, h3⟩ := hh.used g (.tail _ hg)
    have hne : g ≠ x.frame := by
      rintro rfl
      exact hnd.1 hg
    simp only [PgState.freePage, hrel.size, hrel.used, h3, Bool.true_and]
    rw [Bool.not_eq_true', decide_eq_false_iff_not]
    omega
  · simp only [PgState.freePage, Nat.mul_div_cancel _ (by omega : 0 < 0x1000)]
    exact hh.log.trans perm_middle

/-! ## Trees -/

theorem pageCount_perm (hp : ns.Perm ns') : pageCount ns = pageCount ns' := hp.countP_eq _

theorem pageCount_cons (x : Node Nat) (ns : List (Node Nat)) :
    pageCount (x :: ns) = pageCount ns + if x.height = 0 then 1 else 0 := by
  simp [pageCount, countP_cons]

section

variable (hT : Trees s roots extra)
include hT

theorem Trees.nodup : (frames (spaceNodes s.mem roots)).Nodup := by
  have hnd := hT.held.nodup
  rw [frames_append] at hnd
  exact (nodup_append.mp hnd).2.1

theorem Trees.extra_ne {g : Nat} (hf : f ∈ frames extra) (hg : g ∈ frames (spaceNodes s.mem roots)) :
    f ≠ g := by
  have hnd := hT.held.nodup
  rw [frames_append] at hnd
  exact (nodup_append.mp hnd).2.2 f hf g hg

theorem Trees.node_eq {y : Node Nat} (hx : x ∈ spaceNodes s.mem roots)
    (hy : y ∈ spaceNodes s.mem roots) (heq : x.frame = y.frame) : x = y :=
  node_eq_of_frame hT.nodup hx hy heq

theorem Trees.move {extra' : List (Node Nat)} (hmm : s'.mm = s.mm) (ht : s'.taken = s.taken)
    (hf : s'.freed = s.freed) (hu : s'.userMemory = s.userMemory)
    (hp : (extra ++ spaceNodes s.mem roots).Perm (extra' ++ spaceNodes s'.mem roots))
    (hentries : ∀ h p t, ⟨h + 1, p, t⟩ ∈ spaceNodes s'.mem roots → ∀ i ∈ pgSlots h p, EntryOk h (s'.mem t i)) :
    Trees s' roots extra' where
  held := (hT.held.congr hmm ht hf).perm hp
  memory := by rw [hu, hT.memory, pageCount_perm hp]
  entries := hentries

theorem Trees.take_none (ha : Allocates s.mm type 1 r) (h0 : r.1 = 0) :
    Trees (s.take r) roots extra :=
  ⟨hT.held.take_none ha h0, hT.memory, hT.entries⟩

theorem Trees.take_table (ha : Allocates s.mm type 1 r) (h0 : r.1 ≠ 0) (h key : Nat) :
    Trees (s.take r) roots (⟨h + 1, key, r.1 / 0x1000⟩ :: extra) where
  held := (hT.held.take_some ha h0 (h + 1) key).1
  memory := by
    exact hT.memory
  entries := hT.entries

theorem Trees.take_page (ha : Allocates s.mm type 1 r) (h0 : r.1 ≠ 0) (key : Nat) :
    Trees { s.take r with userMemory := s.userMemory + 0x1000 } roots
      (⟨0, key, r.1 / 0x1000⟩ :: extra) where
  held := (hT.held.take_some ha h0 0 key).1.congr rfl rfl rfl
  memory := by
    rw [cons_append, pageCount_cons, if_pos rfl, hT.memory]
    push_cast [PgState.take]
    omega
  entries := hT.entries

end

theorem Trees.free_table (hT : Trees s roots (x :: extra)) (hx : x.height ≠ 0) :
    Trees (s.freePage (x.frame * 0x1000)) roots extra where
  held := hT.held.freePage
  memory := by
    have hmem := hT.memory
    rw [cons_append, pageCount_cons, if_neg hx] at hmem
    exact hmem
  entries := hT.entries

theorem Trees.free_page (hT : Trees s roots (x :: extra)) (hx : x.height = 0) :
    Trees { s.freePage (x.frame * 0x1000) with userMemory := s.userMemory - 0x1000 }
      roots extra where
  held := hT.held.freePage.congr rfl rfl rfl
  memory := by
    have hmem := hT.memory
    rw [cons_append, pageCount_cons, if_pos hx] at hmem
    push_cast [PgState.freePage]
    omega
  entries := hT.entries

theorem Trees.congr (hT : Trees s roots extra)
    (hsame : ∀ g ∈ frames (spaceNodes s.mem roots), s'.mem g = s.mem g) (hmm : s'.mm = s.mm)
    (ht : s'.taken = s.taken) (hf : s'.freed = s.freed) (hu : s'.userMemory = s.userMemory) :
    Trees s' roots extra ∧ spaceNodes s'.mem roots = spaceNodes s.mem roots := by
  have hforest : spaceNodes s'.mem roots = spaceNodes s.mem roots :=
    forest_congr fun g hg j => by rw [hsame g hg.mem_frames]
  refine ⟨hT.move hmm ht hf hu (by rw [hforest]) fun h p t hin j hj => ?_, hforest⟩
  rw [hforest] at hin
  rw [hsame t (mem_frames_of_mem hin)]
  exact hT.entries h p t hin j hj

theorem Trees.zeroFrame (hT : Trees s roots extra) (hf : f ∈ frames extra) :
    Trees (s.zeroFrame f) roots extra ∧
      spaceNodes (s.zeroFrame f).mem roots = spaceNodes s.mem roots :=
  hT.congr (fun _ hg => Function.update_of_ne (hT.extra_ne hf hg).symm _ _) rfl rfl rfl rfl

theorem write_mem (s : PgState) (t i v f j : Nat) :
    (s.write t i v).mem f j = if f = t ∧ j = i then v else s.mem f j := by
  simp only [PgState.write]
  by_cases hf : f = t
  · subst hf
    by_cases hj : j = i
    · simp [hj]
    · simp [hj]
  · simp [hf]

/-- **One entry is written.** What was behind its slot is no longer linked,
what is behind it now is. -/
theorem Trees.write (hT : Trees s roots extra) (hin : ⟨h + 1, p, t⟩ ∈ spaceNodes s.mem roots)
    (hi : i ∈ pgSlots h p) {v : Nat} (hv : EntryOk h v) {old new : List (Node Nat)}
    (extra' : List (Node Nat))
    (hold : slot pgShape s.mem h p t i = old)
    (hnew : slot pgShape (s.write t i v).mem h p t i = new)
    (hmove : (extra ++ old).Perm (extra' ++ new))
    (hentries : ∀ h p t', ⟨h + 1, p, t'⟩ ∈ new → ∀ j ∈ pgSlots h p,
      EntryOk h ((s.write t i v).mem t' j)) :
    Trees (s.write t i v) roots extra' ∧ ∀ x ∈ new, x ∈ spaceNodes (s.write t i v).mem roots := by
  have hother : ∀ f j, ¬ (f = t ∧ j = i) → (s.write t i v).mem f j = s.mem f j :=
    fun f j hne => by rw [write_mem, if_neg hne]
  obtain ⟨rest, h1, h2⟩ := forest_update hother hi hT.nodup hin
  rw [hold] at h1
  rw [hnew] at h2
  refine ⟨hT.move rfl rfl rfl rfl ?_ fun h' p' t' hin' j hj => ?_, fun x hx =>
    h2.mem_iff.mpr (mem_append_left _ hx)⟩
  · refine (h1.append_left extra).trans (List.Perm.trans ?_ (h2.append_left extra').symm)
    rw [← append_assoc, ← append_assoc]
    exact hmove.append_right rest
  rcases mem_append.mp (h2.mem_iff.mp hin') with hn | hr
  · exact hentries h' p' t' hn j hj
  have hin0 := h1.mem_iff.mpr (mem_append_right _ hr)
  rw [write_mem]
  split
  · rename_i heq
    have hnode := hT.node_eq hin0 hin heq.1
    simp only [Node.mk.injEq, Nat.add_right_cancel_iff] at hnode
    rwa [hnode.1]
  · exact hT.entries h' p' t' hin0 j hj

end Dancy.Pg
