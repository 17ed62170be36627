import Dancy.Mm.Alloc

/-!
# Page tables (`pg.c`, 64-bit)

Physical memory is what the paging code sees of it: `mem t i` is the
64-bit entry `i` of the frame number `t`. The kernel runs on identity
mapped memory, so the address in an entry is the pointer it follows.
-/

namespace Dancy.Pg

open Dancy.Mm Function

/-- Entry `i` of frame `t`. -/
abbrev PageMem := Nat → Nat → Nat

/-- Memory, the frame allocator, `task_current()->pg_user_memory` and
`kernel->cpu_feature.nxbit`. `taken` and `freed` are the frames that were
got from the allocator and given back, newest first; no function reads
them. -/
structure PgState where
  mem : PageMem
  mm : MmState
  userMemory : Int
  nxbit : Bool
  (taken freed : List Nat)

def pgBlocked : Nat := 0x0100
def pgReadonly : Nat := 0x0200
def pgNoexec : Nat := 0x0400
def pgArctic : Nat := 0x0800

/-- The bits of an entry: present, writable, user and large page. -/
def present (e : Nat) : Bool := e.testBit 0
def writable (e : Nat) : Bool := e.testBit 1
def userBit (e : Nat) : Bool := e.testBit 2
def large (e : Nat) : Bool := e.testBit 7

/-- The table an entry points to: `e & 0xFFFFFFFFFFFFF000`. -/
def tableOf (e : Nat) : Nat := e / 0x1000

/-- The page an entry points to: `e & 0x000FFFFFFFFFF000`. -/
def frameOf (e : Nat) : Nat := e / 0x1000 % 0x10000000000

/-- The index into the table of level `k`, level `0` being the
page-map-level-4 table. -/
def pgIndex (addr k : Nat) : Nat := (addr >>> (39 - 9 * k)) % 512

namespace PgState

def write (s : PgState) (t i v : Nat) : PgState :=
  { s with mem := Function.update s.mem t (Function.update (s.mem t) i v) }

/-- `memset(frame, 0, 0x1000)`. -/
def zeroFrame (s : PgState) (f : Nat) : PgState :=
  { s with mem := Function.update s.mem f fun _ => 0 }

/-- The state after an allocation of one page, `r` being its result. -/
def take (s : PgState) (r : Nat × MmState) : PgState :=
  { s with mm := r.2, taken := if r.1 = 0 then s.taken else r.1 / 0x1000 :: s.taken }

/-- `mm_free_page`. -/
def freePage (s : PgState) (addr : Nat) : PgState :=
  { s with mm := mmFreePage s.mm addr, freed := addr / 0x1000 :: s.freed }

end PgState

/-- `pg_get_entry`: the table and the index of the entry of a page;
`none` is NULL. -/
def pgGetEntry (mem : PageMem) (cr3 addr : Nat) : Option (Nat × Nat) :=
  if addr >>> 39 > 0xFF then none
  else
    let e := mem (cr3 / 0x1000) (addr >>> 39)
    if !present e then none
    else
      let e := mem (tableOf e) (pgIndex addr 1)
      if !present e || large e then none
      else
        let e := mem (tableOf e) (pgIndex addr 2)
        if !present e || large e then none
        else some (tableOf e, pgIndex addr 3)

/-- One level of `pg_map_virtual`: the table that entry `i` of table `t`
points to, which is made when the entry is not present; `none` is the
return value `1`. Entries of the top level are not tested for a large
page. -/
def pgEnterTable (s : PgState) (t i : Nat) (testLarge : Bool) : Option Nat × PgState :=
  if !present (s.mem t i) then
    let r := mmAllocPage s.mm
    let s := s.take r
    if r.1 = 0 then (none, s)
    else
      let s := (s.zeroFrame (r.1 / 0x1000)).write t i (r.1 ||| 0x27)
      (some (tableOf (s.mem t i)), s)
  else if testLarge && large (s.mem t i) then (none, s)
  else (some (tableOf (s.mem t i)), s)

/-- `page_bits` of the last level. -/
def pageBits (nxbit : Bool) (type : Nat) : Nat :=
  let bits := 0x27
  let bits := if type &&& pgBlocked ≠ 0 then bits &&& 0xFFE else bits
  let bits := if type &&& pgReadonly ≠ 0 then bits &&& 0xFFD else bits
  let bits := if type &&& pgArctic ≠ 0 then bits ||| 0x800 else bits
  if type &&& pgNoexec ≠ 0 ∧ nxbit then bits ||| 0x8000000000000000 else bits

/-- The last level of `pg_map_virtual`: a page that was there is freed. -/
def pgSetPage (s : PgState) (t i addr type : Nat) : PgState :=
  let old := s.mem t i
  let s' := s.write t i (addr / 0x1000 * 0x1000 ||| pageBits s.nxbit type)
  if old = 0 then s'
  else
    let s' := s'.freePage (frameOf old * 0x1000)
    { s' with userMemory := s'.userMemory - 0x1000 }

/-- `pg_map_virtual`; `true` is the return value `1`. -/
def pgMapVirtual (s : PgState) (cr3 vaddr addr type : Nat) : Bool × PgState :=
  if vaddr >>> 39 > 0xFF then (true, s)
  else
    match pgEnterTable s (cr3 / 0x1000) (vaddr >>> 39) false with
    | (none, s) => (true, s)
    | (some pdpe, s) =>
      match pgEnterTable s pdpe (pgIndex vaddr 1) true with
      | (none, s) => (true, s)
      | (some pde, s) =>
        match pgEnterTable s pde (pgIndex vaddr 2) true with
        | (none, s) => (true, s)
        | (some pte, s) => (false, pgSetPage s pte (pgIndex vaddr 3) addr type)

/-- Whether an entry of level `k` leads to the table of the next level. -/
def leads (k e : Nat) : Bool := present e && !(k != 0 && large e)

/-- The table of level `k` on the walk of an address. -/
def tableAt (mem : PageMem) (root addr : Nat) : Nat → Option Nat
  | 0 => some root
  | k + 1 =>
    match tableAt mem root addr k with
    | none => none
    | some t =>
      let e := mem t (pgIndex addr k)
      if leads k e then some (tableOf e) else none

theorem tableAt_succ {mem : PageMem} {root addr k u : Nat} :
    tableAt mem root addr (k + 1) = some u ↔
      ∃ t, tableAt mem root addr k = some t ∧ leads k (mem t (pgIndex addr k)) = true ∧
        u = tableOf (mem t (pgIndex addr k)) := by
  rw [tableAt]
  cases tableAt mem root addr k with
  | none => simp
  | some t =>
    simp only [Option.some.injEq]
    split
    · rename_i hl
      simp [hl, eq_comm]
    · rename_i hl
      simp [hl]

theorem pgIndex_zero {addr : Nat} (h : addr >>> 39 ≤ 0xFF) : pgIndex addr 0 = addr >>> 39 := by
  exact Nat.mod_eq_of_lt (by omega)

theorem leads_zero (e : Nat) : leads 0 e = present e := by simp [leads]

theorem leads_succ (k e : Nat) : leads (k + 1) e = !(!present e || large e) := by
  simp [leads]

theorem pgGetEntry_eq_some {mem : PageMem} {cr3 addr t i : Nat} :
    pgGetEntry mem cr3 addr = some (t, i) ↔
      addr >>> 39 ≤ 0xFF ∧ tableAt mem (cr3 / 0x1000) addr 3 = some t ∧ i = pgIndex addr 3 := by
  unfold pgGetEntry
  by_cases hlim : addr >>> 39 > 0xFF
  · simp only [hlim]
    constructor
    · intro h
      cases h
    · omega
  simp only [hlim]
  have hle : addr >>> 39 ≤ 0xFF := by omega
  simp only [tableAt, leads_zero, leads_succ, pgIndex_zero hle]
  cases present (mem (cr3 / 0x1000) (addr >>> 39)) with
  | false => simp
  | true =>
    simp only [Bool.not_true, Bool.false_eq_true, if_false]
    split
    · rename_i hno
      simp [hno]
    rename_i hyes
    simp only [hyes, if_true]
    split
    · rename_i hno
      simp [hno]
    · rename_i hyes'
      simp only [hyes', Bool.not_false, if_true, Option.some.injEq, Prod.mk.injEq]
      tauto

/-! ## Page tables that grow -/

/-- A frame `mm_alloc_page` may return. -/
def Free (mm : MmState) (f : Nat) : Prop := Suitable mm .normal 1 f

/-- The first address of the user address space, and the first above it. -/
def userBase : Nat := 0x10000000
def userLimit : Nat := 0x800000000000

structure UserTables (s : PgState) (cr3 : Nat) : Prop where
  ready : s.mm.mmReady = true
  hint : HintCovers s.mm
  used : ∀ a k t, a < userLimit → k ≤ 3 → tableAt s.mem (cr3 / 0x1000) a k = some t →
    ¬ Free s.mm t
  apart : ∀ a b j k t, a < userLimit → b < userLimit → j ≤ 3 → k ≤ 3 →
    tableAt s.mem (cr3 / 0x1000) a j = some t → tableAt s.mem (cr3 / 0x1000) b k = some t → j = k
  zero : ∀ a t, a < userLimit → tableAt s.mem (cr3 / 0x1000) a 3 = some t →
    s.mem t (pgIndex a 3) % 0x100000000 = 0 → s.mem t (pgIndex a 3) = 0

/-- The entries above the last level allow user accesses and writing, as
`pg_create_cr3` and `pg_map_virtual` write them. -/
def UpperBits (mem : PageMem) (cr3 : Nat) : Prop :=
  ∀ a k t, userBase ≤ a → a < userLimit → k < 3 →
    tableAt mem (cr3 / 0x1000) a k = some t → present (mem t (pgIndex a k)) = true →
    userBit (mem t (pgIndex a k)) = true ∧ writable (mem t (pgIndex a k)) = true

/-- The entry of a page is zero, where it exists. -/
def LeafEmpty (mem : PageMem) (cr3 a : Nat) : Prop :=
  ∀ t, tableAt mem (cr3 / 0x1000) a 3 = some t → mem t (pgIndex a 3) = 0

structure Keeps (s s' : PgState) (cr3 : Nat) : Prop where
  tables : UserTables s' cr3
  walks : ∀ b k t, b < userLimit → k ≤ 3 → tableAt s.mem (cr3 / 0x1000) b k = some t →
    tableAt s'.mem (cr3 / 0x1000) b k = some t
  leaves : ∀ b t, b < userLimit → tableAt s.mem (cr3 / 0x1000) b 3 = some t →
    present (s.mem t (pgIndex b 3)) = true → s'.mem t (pgIndex b 3) = s.mem t (pgIndex b 3)
  upper : UpperBits s.mem cr3 → UpperBits s'.mem cr3

/-- The same, while there is no page for `a`. -/
structure Grows (s s' : PgState) (cr3 a : Nat) : Prop extends Keeps s s' cr3 where
  empty : LeafEmpty s.mem cr3 a → LeafEmpty s'.mem cr3 a

variable {s s' s'' : PgState} {cr3 a : Nat}

theorem Grows.refl (h : UserTables s cr3) : Grows s s cr3 a :=
  ⟨⟨h, fun _ _ _ _ _ ht => ht, fun _ _ _ _ _ => rfl, id⟩, id⟩

theorem Grows.congr (h : Grows s s' cr3 a) (hmem : s''.mem = s'.mem) (hmm : s''.mm = s'.mm) :
    Grows s s'' cr3 a := by
  obtain ⟨⟨⟨h1, h2, h3, h4, h5⟩, h6, h7, h8⟩, h9⟩ := h
  rw [← hmem] at h3 h4 h5 h6 h7 h8 h9
  rw [← hmm] at h1 h2 h3
  exact ⟨⟨⟨h1, h2, h3, h4, h5⟩, h6, h7, h8⟩, h9⟩

theorem Keeps.trans (h1 : Keeps s s' cr3) (h2 : Keeps s' s'' cr3) : Keeps s s'' cr3 where
  tables := h2.tables
  walks := fun b k t hb hk ht => h2.walks b k t hb hk (h1.walks b k t hb hk ht)
  leaves := fun b t hb ht hp => by
    have hsame := h1.leaves b t hb ht hp
    rw [← hsame] at hp
    exact (h2.leaves b t hb (h1.walks b 3 t hb le_rfl ht) hp).trans hsame
  upper := fun hu => h2.upper (h1.upper hu)

theorem Grows.trans (h1 : Grows s s' cr3 a) (h2 : Grows s' s'' cr3 a) :
    Grows s s'' cr3 a :=
  ⟨h1.toKeeps.trans h2.toKeeps, fun he => h2.empty (h1.empty he)⟩

theorem or_page (f : Nat) {bits : Nat} (h : bits < 0x1000) :
    f * 0x1000 ||| bits = f * 0x1000 + bits := by
  have hor := Nat.two_pow_add_eq_or_of_lt (i := 12) h f
  rw [mul_comm]
  exact hor.symm

theorem tableOf_or (f : Nat) {bits : Nat} (h : bits < 0x1000) :
    tableOf (f * 0x1000 ||| bits) = f := by
  rw [or_page f h, tableOf]
  omega

theorem testBit_page (f k : Nat) (hk : k < 12) : (f * 0x1000).testBit k = false := by
  have hpow : (2 ^ 12 * f).testBit k = (decide (k ≥ 12) && f.testBit (k - 12)) :=
    Nat.testBit_two_pow_mul
  rw [mul_comm, show (0x1000 : Nat) = 2 ^ 12 from rfl, hpow,
    decide_eq_false (not_le.mpr hk), Bool.false_and]

theorem testBit_or_page (f bits k : Nat) (hk : k < 12) :
    (f * 0x1000 ||| bits).testBit k = bits.testBit k := by
  simp [testBit_page f k hk]

theorem frameUsed_mono_free {mm mm' : MmState} {f n t : Nat} (h : Taken mm mm' f n)
    (ht : Free mm' t) : Free mm t := by
  refine ⟨ht.pos, ht.frame_pos, ht.aligned, ?_, ?_, fun g h1 h2 => ?_⟩
  · have hb := ht.below
    simp only [frameLimit, h.size] at hb ⊢
    exact hb
  · rw [← h.size]
    exact ht.inside
  · have hfree := ht.free g h1 h2
    rw [h.used, Bool.or_eq_false_iff] at hfree
    exact hfree.1

theorem mmAllocPage_free {mm : MmState} (hready : mm.mmReady = true) (hhint : HintCovers mm) :
    (mmAllocPage mm).2.mmReady = true ∧ HintCovers (mmAllocPage mm).2 ∧
      (∀ t, Free (mmAllocPage mm).2 t → Free mm t) ∧
      ((mmAllocPage mm).1 = 0 ∨ ∃ f, (mmAllocPage mm).1 = f * 0x1000 ∧ 0 < f ∧ Free mm f ∧
        ¬ Free (mmAllocPage mm).2 f) := by
  have hspec := mmAllocPage_spec hready hhint
  rcases hspec.outcome with ⟨h0, htaken, -⟩ | ⟨f, hf, hsuit, htaken⟩
  · exact ⟨htaken.ready.trans hready, hspec.hint, fun t => frameUsed_mono_free htaken, .inl h0⟩
  refine ⟨htaken.ready.trans hready, hspec.hint, fun t => frameUsed_mono_free htaken,
    .inr ⟨f, hf, hsuit.frame_pos, hsuit, fun hfree => ?_⟩⟩
  have hno := hfree.free f le_rfl (by omega)
  rw [htaken.used] at hno
  simp at hno

theorem tableAt_zeroFrame {f root : Nat} (hroot : ∀ k t, k ≤ 3 →
    tableAt s.mem root a k = some t → t ≠ f) :
    ∀ k, k ≤ 3 → tableAt (s.zeroFrame f).mem root a k = tableAt s.mem root a k := by
  intro k
  induction k with
  | zero => intro _; rfl
  | succ k ih =>
    intro hk
    rw [tableAt, tableAt, ih (by omega)]
    cases ht : tableAt s.mem root a k with
    | none => rfl
    | some t =>
      have hne := hroot k t (by omega) ht
      simp only [PgState.zeroFrame, update_of_ne hne]

theorem UserTables.alloc (h : UserTables s cr3) (ha : a < userLimit) :
    let r := mmAllocPage s.mm
    (r.1 = 0 → Grows s (s.take r) cr3 a) ∧
    (r.1 ≠ 0 → Grows s ((s.take r).zeroFrame (r.1 / 0x1000)) cr3 a ∧
      Free s.mm (r.1 / 0x1000) ∧ ¬ Free r.2 (r.1 / 0x1000) ∧
      r.1 = r.1 / 0x1000 * 0x1000) := by
  obtain ⟨hready, hhint, hfree, hout⟩ := mmAllocPage_free h.ready h.hint
  refine ⟨fun _ => ?_, fun hne => ?_⟩
  · exact ⟨⟨⟨hready, hhint, fun a k t ha hk ht hf => h.used a k t ha hk ht (hfree t hf),
      h.apart, h.zero⟩, fun _ _ _ _ _ ht => ht, fun _ _ _ _ _ => rfl, id⟩, id⟩
  obtain ⟨f, hf, -, hff, hnot⟩ := hout.resolve_left hne
  have hdiv : (mmAllocPage s.mm).1 / 0x1000 = f := by omega
  rw [hdiv]
  have hne : ∀ b k t, b < userLimit → k ≤ 3 → tableAt s.mem (cr3 / 0x1000) b k = some t → t ≠ f :=
    fun b k t hb hk ht heq => h.used b k t hb hk ht (heq ▸ hff)
  have hwalk : ∀ b k, b < userLimit → k ≤ 3 →
      tableAt ((s.take (mmAllocPage s.mm)).zeroFrame f).mem (cr3 / 0x1000) b k
        = tableAt s.mem (cr3 / 0x1000) b k :=
    fun b k hb hk =>
      @tableAt_zeroFrame (s.take (mmAllocPage s.mm)) b f (cr3 / 0x1000)
        (fun k t hk ht => hne b k t hb hk ht) k hk
  have hentry : ∀ b k t i, b < userLimit → k ≤ 3 → tableAt s.mem (cr3 / 0x1000) b k = some t →
      ((s.take (mmAllocPage s.mm)).zeroFrame f).mem t i = s.mem t i := by
    intro b k t i hb hk ht
    simp only [PgState.zeroFrame, PgState.take, update_of_ne (hne b k t hb hk ht)]
  refine ⟨⟨⟨⟨hready, hhint, fun b k t hb hk ht => ?_,
    fun b c j k t hb hc hj hk h1 h2 => ?_, fun b t hb ht hz => ?_⟩,
    fun b k t hb hk ht => ?_, fun b t hb ht _ => ?_, fun hu => ?_⟩,
    fun he t ht => ?_⟩, hff, hnot, by omega⟩
  · rw [hwalk b k hb hk] at ht
    exact fun hfr => h.used b k t hb hk ht (hfree t hfr)
  · rw [hwalk b j hb hj] at h1
    rw [hwalk c k hc hk] at h2
    exact h.apart b c j k t hb hc hj hk h1 h2
  · rw [hwalk b 3 hb le_rfl] at ht
    rw [hentry b 3 t _ hb le_rfl ht] at hz ⊢
    exact h.zero b t hb ht hz
  · rwa [hwalk b k hb hk]
  · exact hentry b 3 t _ hb le_rfl ht
  · intro b k t hlow hb hk ht hp
    rw [hwalk b k hb (by omega)] at ht
    rw [hentry b k t _ hb (by omega) ht] at hp ⊢
    exact hu b k t hlow hb hk ht hp
  · rw [hwalk a 3 ha le_rfl] at ht
    rw [hentry a 3 t _ ha le_rfl ht]
    exact he t ht

/-! ## A new table -/

section Link

variable {f t i k : Nat} {mm : MmState}

/-- The state after a free frame has been cleared and linked to. -/
def linked (s : PgState) (mm : MmState) (f t i : Nat) : PgState :=
  ({ s with mm := mm }.zeroFrame f).write t i (f * 0x1000 ||| 0x27)

theorem linked_entry (hne : t ≠ f) (u j : Nat) :
    (linked s mm f t i).mem u j =
      if u = t ∧ j = i then f * 0x1000 ||| 0x27 else if u = f then 0 else s.mem u j := by
  simp only [linked, PgState.write, PgState.zeroFrame]
  by_cases hu : u = t
  · subst hu
    by_cases hj : j = i
    · simp [hj]
    · simp [hj, hne]
  · simp only [update_of_ne hu, hu]
    by_cases huf : u = f
    · simp [huf]
    · simp [huf]

/-- A table `t` of level `k` above the last, whose entry `i` is free. -/
structure Linkable (s : PgState) (cr3 : Nat) (mm : MmState) (f t i k : Nat) : Prop where
  ready : mm.mmReady = true
  hint : HintCovers mm
  shrink : ∀ u, Free mm u → Free s.mm u
  was_free : Free s.mm f
  not_free : ¬ Free mm f
  below : k < 3
  reached : ∃ a, a < userLimit ∧ tableAt s.mem (cr3 / 0x1000) a k = some t ∧ pgIndex a k = i
  no_entry : present (s.mem t i) = false

section

variable (h : UserTables s cr3) (hl : Linkable s cr3 mm f t i k)
include h hl

theorem Linkable.ne : t ≠ f := by
  obtain ⟨a, ha, ht, -⟩ := hl.reached
  exact fun heq => h.used a k t ha (le_of_lt hl.below) ht (heq ▸ hl.was_free)

theorem Linkable.used_ne {b j u : Nat} (hb : b < userLimit) (hj : j ≤ 3)
    (hu : tableAt s.mem (cr3 / 0x1000) b j = some u) : u ≠ f :=
  fun heq => h.used b j u hb hj hu (heq ▸ hl.was_free)

theorem Linkable.entry {b j u n : Nat} (hb : b < userLimit) (hj : j ≤ 3)
    (hu : tableAt s.mem (cr3 / 0x1000) b j = some u) (hp : present (s.mem u n) = true) :
    (linked s mm f t i).mem u n = s.mem u n := by
  rw [linked_entry (hl.ne h), if_neg, if_neg (hl.used_ne h hb hj hu)]
  rintro ⟨rfl, rfl⟩
  rw [hl.no_entry] at hp
  cases hp

end

theorem leads_present {k e : Nat} (h : leads k e = true) : present e = true := by
  simp only [leads, Bool.and_eq_true] at h
  exact h.1

theorem Linkable.forward (h : UserTables s cr3) (hl : Linkable s cr3 mm f t i k) {b : Nat}
    (hb : b < userLimit) : ∀ {j u : Nat}, j ≤ 3 → tableAt s.mem (cr3 / 0x1000) b j = some u →
    tableAt (linked s mm f t i).mem (cr3 / 0x1000) b j = some u := by
  intro j
  induction j with
  | zero => exact fun _ hu => hu
  | succ j ih =>
    intro u hj hu
    obtain ⟨v, hv, hlead, rfl⟩ := tableAt_succ.mp hu
    have hsame := hl.entry h hb (by omega) hv (leads_present hlead)
    refine tableAt_succ.mpr ⟨v, ih (by omega) hv, ?_, ?_⟩
    · rwa [hsame]
    · rw [hsame]

theorem Linkable.backward (h : UserTables s cr3) (hl : Linkable s cr3 mm f t i k) {b : Nat}
    (hb : b < userLimit) : ∀ {j u : Nat}, j ≤ 3 →
    tableAt (linked s mm f t i).mem (cr3 / 0x1000) b j = some u →
    tableAt s.mem (cr3 / 0x1000) b j = some u ∨
      (u = f ∧ ∃ j', j = j' + 1 ∧ tableAt s.mem (cr3 / 0x1000) b j' = some t ∧
        pgIndex b j' = i) := by
  intro j
  induction j with
  | zero => exact fun _ hu => .inl hu
  | succ j ih =>
    intro u hj hu
    obtain ⟨v, hv, hlead, rfl⟩ := tableAt_succ.mp hu
    rw [linked_entry (hl.ne h)] at hlead ⊢
    rcases ih (by omega) hv with hold | ⟨rfl, -⟩
    · have hvf := hl.used_ne h hb (by omega) hold
      by_cases hslot : v = t ∧ pgIndex b j = i
      · rw [if_pos hslot]
        exact .inr ⟨tableOf_or f (by omega), j, rfl, hslot.1 ▸ hold, hslot.2⟩
      · rw [if_neg hslot, if_neg hvf] at hlead ⊢
        exact .inl (tableAt_succ.mpr ⟨v, hold, hlead, rfl⟩)
    · -- the new table is zero
      rw [if_neg (fun heq => hl.ne h heq.1.symm), if_pos rfl] at hlead
      simp [leads, present] at hlead

theorem present_new (f : Nat) : present (f * 0x1000 ||| 0x27) = true := by
  rw [present, testBit_or_page f _ 0 (by omega)]
  rfl

theorem Linkable.grows (h : UserTables s cr3) (hl : Linkable s cr3 mm f t i k)
    (ha : a < userLimit) : Grows s (linked s mm f t i) cr3 a := by
  have hk := hl.below
  -- a table of the last level is not the one that is written
  have hleaf : ∀ {b u}, b < userLimit → tableAt s.mem (cr3 / 0x1000) b 3 = some u →
      ∀ n, (linked s mm f t i).mem u n = s.mem u n := by
    intro b u hb hu n
    obtain ⟨c, hc, ht, -⟩ := hl.reached
    rw [linked_entry (hl.ne h), if_neg, if_neg (hl.used_ne h hb le_rfl hu)]
    rintro ⟨rfl, -⟩
    have hlevel := h.apart c b k 3 u hc hb (by omega) le_rfl ht hu
    omega
  have hzero : ∀ n, (linked s mm f t i).mem f n = 0 := by
    intro n
    rw [linked_entry (hl.ne h), if_neg (fun heq => hl.ne h heq.1.symm), if_pos rfl]
  refine ⟨⟨⟨hl.ready, hl.hint, fun b j u hb hj hu => ?_,
    fun b c j l u hb hc hj hl' h1 h2 => ?_, fun b u hb hu hz => ?_⟩,
    fun b j u hb hj hu => hl.forward h hb hj hu, fun b u hb hu _ => hleaf hb hu _,
    fun hup b j u hlow hb hj hu hp => ?_⟩, fun he u hu => ?_⟩
  · rcases hl.backward h hb hj hu with hu | ⟨rfl, -⟩
    · exact fun hfree => h.used b j u hb hj hu (hl.shrink u hfree)
    · exact hl.not_free
  · rcases hl.backward h hb hj h1 with o1 | ⟨e1, j', rfl, o1, -⟩
    · rcases hl.backward h hc hl' h2 with o2 | ⟨e2, -⟩
      · exact h.apart b c j l u hb hc hj hl' o1 o2
      · exact absurd e2 (hl.used_ne h hb hj o1)
    · rcases hl.backward h hc hl' h2 with o2 | ⟨-, l', rfl, o2, -⟩
      · exact absurd e1 (hl.used_ne h hc hl' o2)
      · rw [h.apart b c j' l' t hb hc (by omega) (by omega) o1 o2]
  · rcases hl.backward h hb le_rfl hu with hu | ⟨rfl, -⟩
    · rw [hleaf hb hu] at hz ⊢
      exact h.zero b u hb hu hz
    · exact hzero _
  · rcases hl.backward h hb (by omega) hu with hu | ⟨rfl, -⟩
    · rw [linked_entry (hl.ne h)] at hp ⊢
      split
      · rw [userBit, writable, testBit_or_page f _ 2 (by omega), testBit_or_page f _ 1 (by omega)]
        exact ⟨rfl, rfl⟩
      · rename_i hne
        rw [if_neg hne, if_neg (hl.used_ne h hb (by omega) hu)] at hp
        rw [if_neg (hl.used_ne h hb (by omega) hu)]
        exact hup b j u hlow hb hj hu hp
    · rw [hzero] at hp
      simp [present] at hp
  · rcases hl.backward h ha le_rfl hu with hu | ⟨rfl, -⟩
    · rw [hleaf ha hu]
      exact he u hu
    · exact hzero _

end Link

theorem pgEnterTable_grows (h : UserTables s cr3) (ha : a < userLimit) {k t : Nat} (hk : k < 3)
    (ht : tableAt s.mem (cr3 / 0x1000) a k = some t) {o : Option Nat}
    (hr : pgEnterTable s t (pgIndex a k) (k != 0) = (o, s')) :
    Grows s s' cr3 a ∧ ∀ u, o = some u → tableAt s'.mem (cr3 / 0x1000) a (k + 1) = some u := by
  unfold pgEnterTable at hr
  obtain ⟨hnone, hsome⟩ := @UserTables.alloc s cr3 a h ha
  split at hr
  · rename_i hp
    simp only [Bool.not_eq_true'] at hp
    simp only at hr
    split at hr
    · rename_i h0
      cases hr
      exact ⟨hnone h0, by simp⟩
    rename_i h0
    obtain ⟨hgrow, hfree, hnot, hr1⟩ := hsome h0
    obtain ⟨hready, hhint, hshrink, -⟩ := mmAllocPage_free h.ready h.hint
    have hl : Linkable s cr3 (mmAllocPage s.mm).2 ((mmAllocPage s.mm).1 / 0x1000) t
        (pgIndex a k) k :=
      ⟨hready, hhint, hshrink, hfree, hnot, hk, ⟨a, ha, ht, rfl⟩, hp⟩
    have hs' := (Prod.mk.inj hr).2
    have hmem : s'.mem = (linked s (mmAllocPage s.mm).2 ((mmAllocPage s.mm).1 / 0x1000) t
        (pgIndex a k)).mem := by
      rw [← hs', linked, ← hr1]
      rfl
    have hmm : s'.mm = (linked s (mmAllocPage s.mm).2 ((mmAllocPage s.mm).1 / 0x1000) t
        (pgIndex a k)).mm := by
      rw [← hs']
      rfl
    have hentry : s'.mem t (pgIndex a k) = (mmAllocPage s.mm).1 / 0x1000 * 0x1000 ||| 0x27 := by
      simp [hmem, linked_entry (hl.ne h)]
    refine ⟨(hl.grows h ha).congr hmem hmm, fun u hu => ?_⟩
    refine tableAt_succ.mpr ⟨t, hmem ▸ hl.forward h ha (by omega) ht, ?_, ?_⟩
    · have hsmall : (0x27 : Nat).testBit 7 = false := by decide
      rw [hentry, leads, present_new, large, testBit_or_page _ _ 7 (by omega), hsmall]
      simp
    · have hval := (Prod.mk.inj hr).1
      rw [hu, Option.some.injEq] at hval
      rw [← hval, hs']
  · rename_i hp
    simp only [Bool.not_eq_true', Bool.not_eq_false] at hp
    split at hr
    · cases hr
      exact ⟨Grows.refl h, by simp⟩
    rename_i hlarge
    cases hr
    refine ⟨Grows.refl h, fun u hu => tableAt_succ.mpr ⟨t, ht, ?_, (Option.some.inj hu).symm⟩⟩
    rw [Bool.not_eq_true] at hlarge
    rw [leads, hp, hlarge]
    rfl

theorem pageBits_ne (nxbit : Bool) (type : Nat) : (pageBits nxbit type).testBit 2 = true := by
  have hbits : ∀ b, b.testBit 2 = true → (b &&& 0xFFE).testBit 2 = true ∧
      (b &&& 0xFFD).testBit 2 = true ∧ (b ||| 0x800).testBit 2 = true ∧
      (b ||| 0x8000000000000000).testBit 2 = true := by
    intro b hb
    simp only [Nat.testBit_and, Nat.testBit_or, hb]
    decide
  have hif : ∀ (p : Prop) [Decidable p] (x y : Nat), x.testBit 2 = true → y.testBit 2 = true →
      (if p then x else y).testBit 2 = true := by
    intro p _ x y hx hy
    split
    · exact hx
    · exact hy
  have h0 : (0x27 : Nat).testBit 2 = true := by decide
  have h1 := hif (type &&& pgBlocked ≠ 0) _ _ (hbits _ h0).1 h0
  have h2 := hif (type &&& pgReadonly ≠ 0) _ _ (hbits _ h1).2.1 h1
  have h3 := hif (type &&& pgArctic ≠ 0) _ _ (hbits _ h2).2.2.1 h2
  exact hif (type &&& pgNoexec ≠ 0 ∧ nxbit) _ _ (hbits _ h3).2.2.2 h3

theorem pgSetPage_keeps (h : UserTables s cr3) (ha : a < userLimit) {t addr type : Nat}
    (ht : tableAt s.mem (cr3 / 0x1000) a 3 = some t) (hempty : s.mem t (pgIndex a 3) = 0) :
    Keeps s (pgSetPage s t (pgIndex a 3) addr type) cr3 := by
  have hdef : pgSetPage s t (pgIndex a 3) addr type =
      s.write t (pgIndex a 3) (addr / 0x1000 * 0x1000 ||| pageBits s.nxbit type) := by
    rw [pgSetPage]
    simp only [hempty, if_true]
  rw [hdef]
  have hentry : ∀ u n,
      (s.write t (pgIndex a 3) (addr / 0x1000 * 0x1000 ||| pageBits s.nxbit type)).mem u n =
        if u = t ∧ n = pgIndex a 3 then addr / 0x1000 * 0x1000 ||| pageBits s.nxbit type
        else s.mem u n := by
    intro u n
    simp only [PgState.write]
    by_cases hu : u = t
    · subst hu
      by_cases hn : n = pgIndex a 3
      · simp [hn]
      · simp [hn]
    · simp [hu]
  -- only a table of the last level is written
  have hwalk : ∀ b, b < userLimit → ∀ k, k ≤ 3 → tableAt (s.write t (pgIndex a 3)
        (addr / 0x1000 * 0x1000 ||| pageBits s.nxbit type)).mem (cr3 / 0x1000) b k
        = tableAt s.mem (cr3 / 0x1000) b k := by
    intro b hb k
    induction k with
    | zero => intro _; rfl
    | succ k ih =>
      intro hk
      rw [tableAt, tableAt, ih (by omega)]
      cases hu : tableAt s.mem (cr3 / 0x1000) b k with
      | none => rfl
      | some u =>
        have hne : ¬ (u = t ∧ pgIndex b k = pgIndex a 3) := by
          rintro ⟨rfl, -⟩
          have hlevel := h.apart b a k 3 u hb ha (by omega) le_rfl hu ht
          omega
        simp only [hentry, if_neg hne]
  refine ⟨⟨h.ready, h.hint, fun b k u hb hk hu => ?_, fun b c j k u hb hc hj hk h1 h2 => ?_,
    fun b u hb hu hz => ?_⟩, fun b k u hb hk hu => ?_, fun b u hb hu hp => ?_,
    fun hup b k u hlow hb hk hu hp => ?_⟩
  · rw [hwalk b hb k hk] at hu
    exact h.used b k u hb hk hu
  · rw [hwalk b hb j hj] at h1
    rw [hwalk c hc k hk] at h2
    exact h.apart b c j k u hb hc hj hk h1 h2
  · rw [hwalk b hb 3 le_rfl] at hu
    rw [hentry] at hz ⊢
    split
    · rename_i heq
      -- the new entry has a low bit
      rw [if_pos heq] at hz
      have hbit := congrArg (fun n => n.testBit 2) hz
      have hmod := Nat.testBit_mod_two_pow
        (addr / 0x1000 * 0x1000 ||| pageBits s.nxbit type) 32 2
      rw [hmod, testBit_or_page _ _ 2 (by omega), pageBits_ne] at hbit
      simp at hbit
    · rename_i hne
      rw [if_neg hne] at hz
      exact h.zero b u hb hu hz
  · rwa [hwalk b hb k hk]
  · rw [hentry, if_neg]
    rintro ⟨rfl, hi⟩
    rw [hi, hempty] at hp
    simp [present] at hp
  rw [hwalk b hb k (by omega)] at hu
  have hne : ¬ (u = t ∧ pgIndex b k = pgIndex a 3) := by
    rintro ⟨rfl, -⟩
    have hlevel := h.apart b a k 3 u hb ha (by omega) le_rfl hu ht
    omega
  rw [hentry, if_neg hne] at hp ⊢
  exact hup b k u hlow hb hk hu hp

theorem shift_of_lt (ha : a < userLimit) : a >>> 39 ≤ 0xFF := by
  unfold userLimit at ha
  omega

/-- **Mapping a page keeps the walks.** `pg_map_virtual` of a page that
has no entry yet. -/
theorem pgMapVirtual_keeps (h : UserTables s cr3) (ha : a < userLimit)
    (hempty : LeafEmpty s.mem cr3 a) (addr type : Nat) :
    Keeps s (pgMapVirtual s cr3 a addr type).2 cr3 := by
  have hle := shift_of_lt ha
  have hidx := pgIndex_zero hle
  unfold pgMapVirtual
  rw [if_neg (by omega), ← hidx]
  obtain ⟨⟨o1, s1⟩, hr1⟩ : ∃ r, r = pgEnterTable s (cr3 / 0x1000) (pgIndex a 0) false := ⟨_, rfl⟩
  obtain ⟨hg1, ht1⟩ := pgEnterTable_grows h ha (by omega) rfl hr1.symm
  rw [← hr1]
  cases o1 with
  | none => exact hg1.toKeeps
  | some t1 =>
    simp only
    obtain ⟨⟨o2, s2⟩, hr2⟩ : ∃ r, r = pgEnterTable s1 t1 (pgIndex a 1) true := ⟨_, rfl⟩
    obtain ⟨hg2, ht2⟩ := pgEnterTable_grows hg1.tables ha (k := 1) (by omega) (ht1 t1 rfl)
      hr2.symm
    rw [← hr2]
    have hg12 := hg1.trans hg2
    cases o2 with
    | none => exact hg12.toKeeps
    | some t2 =>
      simp only
      obtain ⟨⟨o3, s3⟩, hr3⟩ : ∃ r, r = pgEnterTable s2 t2 (pgIndex a 2) true := ⟨_, rfl⟩
      obtain ⟨hg3, ht3⟩ := pgEnterTable_grows hg2.tables ha (by omega) (ht2 t2 rfl)
        hr3.symm
      rw [← hr3]
      have hg13 := hg12.trans hg3
      cases o3 with
      | none => exact hg13.toKeeps
      | some t3 =>
        exact hg13.toKeeps.trans (pgSetPage_keeps hg3.tables ha (ht3 t3 rfl)
          (hg13.empty hempty t3 (ht3 t3 rfl)))

end Dancy.Pg
