import Dancy.Pg.Mapping

/-!
# Frames of address spaces over whole runs

A new address space is a tree of three tables. The invariant of a task says
that its one or two spaces are `Trees`, and that the processor runs on the
kernel's tables or on those of `pg_cr3`.
-/

namespace Dancy.Pg

open Dancy.Mm Dancy.Lib.Radix List

variable {s s' : PgState} {roots : List Nat} {K : PgKernel}

/-- The tables of a new space: `f4` is the root. -/
structure NewTables (s s' : PgState) (f4 f3 f2 : Nat) : Prop where
  others : ∀ g, g ≠ f4 → g ≠ f3 → g ≠ f2 → s'.mem g = s.mem g
  root : ∀ i, i < 256 → s'.mem f4 i = if i = 0 then f3 * 0x1000 ||| 0x27 else 0
  middle : ∀ i, s'.mem f3 i = if i = 0 then f2 * 0x1000 ||| 0x27 else 0
  last : ∀ i, 128 ≤ i → s'.mem f2 i = 0
  mm : s'.mm = s.mm
  taken : s'.taken = s.taken
  freed : s'.freed = s.freed
  userMemory : s'.userMemory = s.userMemory

theorem Trees.newSpace {f4 f3 f2 : Nat}
    (hT : Trees s roots [⟨2, 0, f2⟩, ⟨3, 0, f3⟩, ⟨4, 0, f4⟩])
    (hf3 : f3 < 0x10000000000) (hf2 : f2 < 0x10000000000) (hn : NewTables s s' f4 f3 f2) :
    Trees s' (f4 :: roots) [] := by
  have hout : ∀ g ∈ frames (spaceNodes s.mem roots), s'.mem g = s.mem g := by
    intro g hg
    exact hn.others g (hT.extra_ne (by simp [frames]) hg).symm
      (hT.extra_ne (by simp [frames]) hg).symm (hT.extra_ne (by simp [frames]) hg).symm
  obtain ⟨hT', hforest⟩ := hT.congr hout hn.mm hn.taken hn.freed hn.userMemory
  -- below the root there are only the two other tables
  have hlast : nodes pgShape s'.mem 2 0 f2 = [] := by
    refine nodes_eq_nil fun i hi => ?_
    have hi : 128 ≤ i := (mem_range'_1.mp hi).1
    rw [hn.last i hi]
    exact pgKid_zero 1
  have hmiddle : nodes pgShape s'.mem 3 0 f3 = [⟨2, 0, f2⟩] := by
    have hone := @nodes_eq_slot _ _ pgShape s'.mem 2 0 f3 0
      (by rw [pgShape_slots]; exact mem_slots_two.mpr (by omega))
      fun j _ hj => by rw [hn.middle, if_neg hj]; exact pgKid_zero 2
    rw [hone]
    have hslot : slot pgShape s'.mem 2 0 f3 0 = _ :=
      slot_some (by rw [hn.middle, if_pos rfl]; exact pgKid_table 1 f2 hf2)
    rw [hslot]
    exact congrArg (fun l => l ++ [(⟨2, 0, f2⟩ : Node Nat)]) hlast
  have hroot : nodes pgShape s'.mem 4 0 f4 = [⟨2, 0, f2⟩, ⟨3, 0, f3⟩] := by
    have hone := @nodes_eq_slot _ _ pgShape s'.mem 3 0 f4 0
      (by rw [pgShape_slots]; exact mem_slots_three.mpr (by omega))
      fun j hi hj => by
        rw [pgShape_slots] at hi
        rw [hn.root j (mem_slots_three.mp hi), if_neg hj]
        exact pgKid_zero 3
    rw [hone]
    have hslot : slot pgShape s'.mem 3 0 f4 0 = _ :=
      slot_some (by rw [hn.root 0 (by omega), if_pos rfl]; exact pgKid_table 2 f3 hf3)
    rw [hslot]
    exact congrArg (fun l => l ++ [(⟨3, 0, f3⟩ : Node Nat)]) hmiddle
  have hall : spaceNodes s'.mem (f4 :: roots) =
      [⟨2, 0, f2⟩, ⟨3, 0, f3⟩, ⟨4, 0, f4⟩] ++ spaceNodes s'.mem roots := by
    have hcons : spaceNodes s'.mem (f4 :: roots) =
        (nodes pgShape s'.mem 4 0 f4 ++ [⟨4, 0, f4⟩]) ++ spaceNodes s'.mem roots := rfl
    rw [hcons, hroot]
    rfl
  refine ⟨?_, ?_, fun h p t hin i hi => ?_⟩
  · rw [hall]
    exact hT'.held
  · rw [hall]
    exact hT'.memory
  rw [hall, mem_append] at hin
  rcases hin with hin | hin
  · simp only [mem_cons, Node.mk.injEq, not_mem_nil, or_false] at hin
    rcases hin with ⟨h1, rfl, rfl⟩ | ⟨h1, rfl, rfl⟩ | ⟨h1, rfl, rfl⟩
    · obtain rfl : h = 1 := by omega
      rw [hn.last i (mem_range'_1.mp hi).1]
      exact EntryOk.zero 1
    · obtain rfl : h = 2 := by omega
      rw [hn.middle]
      split
      · exact .inr ⟨f2, hf2, rfl⟩
      · exact EntryOk.zero 2
    · obtain rfl : h = 3 := by omega
      rw [hn.root i (mem_slots_three.mp hi)]
      split
      · exact .inr ⟨f3, hf3, rfl⟩
      · exact EntryOk.zero 3
  · exact hT'.entries h p t hin i hi

theorem pgFillTables_new (K : PgKernel) (s : PgState) {f4 f3 f2 : Nat} (h43 : f4 ≠ f3)
    (h42 : f4 ≠ f2) (h32 : f3 ≠ f2) :
    NewTables s (pgFillTables K s (f4 * 0x1000) (f3 * 0x1000) (f2 * 0x1000)) f4 f3 f2 := by
  have hdiv : ∀ f : Nat, f * 0x1000 / 0x1000 = f := fun f => by omega
  have hupd : ∀ (m : PageMem) (g : Nat) (v : Nat → Nat) (f j : Nat),
      Function.update m g v f j = if f = g then v j else m f j := by
    intro m g v f j
    by_cases hf : f = g
    · subst hf
      simp
    · simp [hf]
  unfold pgFillTables
  simp only [hdiv]
  refine ⟨fun g h1 h2 h3 => ?_, fun i hi => ?_, fun i => ?_, fun i hi => ?_, rfl, rfl, rfl, rfl⟩
  · funext j
    simp only [write_mem, PgState.zeroFrame, hupd, h1, h2, h3, false_and, if_false]
  · simp only [write_mem, PgState.zeroFrame, hupd, h43, h42, true_and, false_and, if_false,
      if_true, show i ≠ 511 by omega]
  · simp only [write_mem, PgState.zeroFrame, hupd, h43.symm, h32, true_and, false_and, if_false,
      if_true]
  · simp only [write_mem, PgState.zeroFrame, hupd, h42.symm, h32.symm, false_and, if_false,
      if_true, show ¬ i < 128 by omega]

theorem Trees.createCr3 (hT : Trees s roots []) (K : PgKernel) :
    ((pgCreateCr3 K s).1 = 0 → Trees (pgCreateCr3 K s).2 roots []) ∧
    ((pgCreateCr3 K s).1 ≠ 0 →
      Trees (pgCreateCr3 K s).2 ((pgCreateCr3 K s).1 / 0x1000 :: roots) [] ∧
        (pgCreateCr3 K s).1 < wordTop ∧ (pgCreateCr3 K s).1 % 0x1000 = 0) := by
  have ha4 : Allocates s.mm .addr32 1 (mmAllocPages s.mm .addr32 0) :=
    mmAllocPages_spec hT.held.ready hT.held.hint
      (Dvd.dvd.trans (Dvd.dvd.trans ⟨4, rfl⟩ hT.held.whole_pages) (Nat.dvd_mul_left _ _))
      .addr32 (show mmGetCount 0 ≠ 0 by decide)
  unfold pgCreateCr3
  simp only
  split
  · rename_i h4
    exact ⟨fun _ => hT.take_none ha4 h4, fun hne => absurd rfl hne⟩
  rename_i h4
  obtain ⟨-, hr4, -, hf4, hlim4⟩ := hT.held.take_some ha4 h4 4 0
  have hT4 := hT.take_table ha4 h4 3 0
  obtain ⟨f4, hf4d⟩ : ∃ f4, f4 = (mmAllocPages s.mm .addr32 0).1 / 0x1000 := ⟨_, rfl⟩
  obtain ⟨s4, hs4⟩ : ∃ s4, s4 = s.take (mmAllocPages s.mm .addr32 0) := ⟨_, rfl⟩
  rw [← hf4d] at hT4 hr4 hf4 hlim4
  rw [← hs4] at hT4 ⊢
  rw [hr4]
  have ha3 := mmAllocPage_spec hT4.held.ready hT4.held.hint
  split
  · rename_i h3
    exact ⟨fun _ => (hT4.take_none ha3 h3).free_table (by simp), fun hne => absurd rfl hne⟩
  rename_i h3
  obtain ⟨-, hr3, -, hf3, -⟩ := hT4.held.take_some ha3 h3 3 0
  have hT3 := hT4.take_table ha3 h3 2 0
  obtain ⟨f3, hf3d⟩ : ∃ f3, f3 = (mmAllocPage s4.mm).1 / 0x1000 := ⟨_, rfl⟩
  obtain ⟨s3, hs3⟩ : ∃ s3, s3 = s4.take (mmAllocPage s4.mm) := ⟨_, rfl⟩
  rw [← hs3] at hT3 ⊢
  rw [hr3]
  have ha2 := mmAllocPage_spec hT3.held.ready hT3.held.hint
  split
  · rename_i h2
    exact ⟨fun _ => ((hT3.take_none ha2 h2).free_table (by simp)).free_table (by simp),
      fun hne => absurd rfl hne⟩
  rename_i h2
  obtain ⟨-, hr2, -, hf2, -⟩ := hT3.held.take_some ha2 h2 2 0
  have hT2 := hT3.take_table ha2 h2 1 0
  obtain ⟨f2, hf2d⟩ : ∃ f2, f2 = (mmAllocPage s3.mm).1 / 0x1000 := ⟨_, rfl⟩
  obtain ⟨s2, hs2⟩ : ∃ s2, s2 = s3.take (mmAllocPage s3.mm) := ⟨_, rfl⟩
  rw [← hs2] at hT2 ⊢
  rw [hr2]
  refine ⟨fun h0 => absurd (hr4 ▸ h0) h4, fun _ => ?_⟩
  have hnd := hT2.held.nodup
  simp only [frames, cons_append, map_cons, nodup_cons, mem_cons, not_or] at hnd
  rw [Nat.mul_div_cancel _ (by omega : 0 < 0x1000)]
  refine ⟨hT2.newSpace hf3 hf2 (pgFillTables_new K s2 ?_ ?_ ?_), ?_, by omega⟩
  · omega
  · exact fun heq => hnd.1.2.1 heq.symm
  · omega
  · have hlt : f4 < 0x100000 := hlim4
    unfold wordTop
    omega

/-! ## The invariant of a task -/

/-- The address space of a `cr3` field; `0` is none. -/
def spaceOf (cr3 : Nat) : List Nat := if cr3 = 0 then [] else [cr3 / 0x1000]

def PgTask.spaces (T : PgTask) : List Nat := spaceOf T.pgCr3 ++ spaceOf T.pgAltCr3

/-- The spaces of a task are trees of their own; the CPU is in one of them or in the kernel's. -/
structure TaskInv (K : PgKernel) (T : PgTask) : Prop where
  trees : Trees T.pg T.spaces []
  cpu : T.cpuCr3 = K.cr3 ∨ (T.cpuCr3 = T.pgCr3 ∧ T.pgCr3 ≠ 0)
  alt : T.pgAltCr3 ≠ 0 → T.pgCr3 ≠ 0
  aligned : T.pgCr3 % 0x1000 = 0 ∧ T.pgAltCr3 % 0x1000 = 0

variable {T : PgTask} {vaddr size type : Nat}

theorem spaceOf_ne {c : Nat} (h : c ≠ 0) : spaceOf c = [c / 0x1000] := if_neg h

theorem kernel_refused (hcpu : T.cpuCr3 = K.cr3) : T.cpuCr3 / 0x1000 * 0x1000 = K.cr3 := by
  have halign := K.aligned
  omega

theorem TaskInv.root (h : TaskInv K T) (hne : T.cpuCr3 / 0x1000 * 0x1000 ≠ K.cr3) :
    T.cpuCr3 / 0x1000 ∈ T.spaces := by
  rcases h.cpu with hcpu | ⟨hcpu, h0⟩
  · exact absurd (kernel_refused hcpu) hne
  · rw [PgTask.spaces, hcpu, spaceOf_ne h0]
    simp

theorem pgLeaveKernel_pg (T : PgTask) : (pgLeaveKernel T).pg = T.pg := by
  unfold pgLeaveKernel
  simp only
  split
  · rfl
  · split <;> rfl

theorem pgLeaveKernel_pgCr3 (T : PgTask) : (pgLeaveKernel T).pgCr3 = T.pgCr3 := by
  unfold pgLeaveKernel
  simp only
  split
  · rfl
  · split <;> rfl

section

variable (h : TaskInv K T)
include h

theorem TaskInv.enter : TaskInv K (pgEnterKernel K T) := by
  refine ⟨h.trees, ?_, h.alt, h.aligned⟩
  simp only [pgEnterKernel]
  split
  · exact h.cpu
  · exact .inl rfl

theorem TaskInv.leave : TaskInv K (pgLeaveKernel T) := by
  unfold pgLeaveKernel
  simp only
  split
  · exact ⟨h.trees, h.cpu, h.alt, h.aligned⟩
  · split
    · exact ⟨h.trees, h.cpu, h.alt, h.aligned⟩
    · rename_i h0
      exact ⟨h.trees, .inr ⟨rfl, h0⟩, h.alt, h.aligned⟩

theorem TaskInv.withTrees {s : PgState} (hs : Trees s T.spaces []) : TaskInv K { T with pg := s } :=
  ⟨hs, h.cpu, h.alt, h.aligned⟩

theorem TaskInv.create : TaskInv K (pgCreate K T).2 := by
  unfold pgCreate
  split
  · exact h
  rename_i h0
  rw [Decidable.not_not] at h0
  have halt : T.pgAltCr3 = 0 := by
    by_contra hne
    exact h.alt hne h0
  have hroots : T.spaces = [] := by
    rw [PgTask.spaces, h0, halt]
    rfl
  have htrees := h.trees
  rw [hroots] at htrees
  obtain ⟨hfail, hdone⟩ := htrees.createCr3 K
  split
  · rename_i s heq
    rw [heq] at hfail
    exact h.withTrees (by rw [hroots]; exact hfail rfl)
  rename_i cr3 s hne heq
  rw [heq] at hdone
  have hcr3 : cr3 ≠ 0 := hne
  obtain ⟨hT, hlt, hal⟩ := hdone hcr3
  have hmod : cr3 % wordTop = cr3 := Nat.mod_eq_of_lt hlt
  refine ⟨?_, .inr ⟨hmod.symm, hmod.symm ▸ hcr3⟩, fun hne => absurd halt hne,
    hmod.symm ▸ hal, h.aligned.2⟩
  simp only [PgTask.spaces, hmod, halt, spaceOf_ne hcr3]
  exact hT

theorem TaskInv.altCreate : TaskInv K (pgAltCreate K T).2 := by
  unfold pgAltCreate
  split
  · exact h
  rename_i hpre
  rw [not_or, Decidable.not_not] at hpre
  obtain ⟨hne, halt⟩ := hpre
  have hin := h.enter
  obtain ⟨hfail, hdone⟩ := hin.trees.createCr3 K
  simp only
  split
  · rename_i h0
    exact (hin.withTrees (hfail h0)).leave
  rename_i h0
  obtain ⟨hT, hlt, hal⟩ := hdone h0
  have hmod : (pgCreateCr3 K (pgEnterKernel K T).pg).1 % wordTop = _ := Nat.mod_eq_of_lt hlt
  refine ⟨?_, .inr ⟨hmod.symm, hmod.symm ▸ h0⟩, fun _ => hmod.symm ▸ h0, hmod.symm ▸ hal, ?_⟩
  · simp only [PgTask.spaces, hmod, spaceOf_ne h0, pgLeaveKernel_pg, pgLeaveKernel_pgCr3]
    have hroots : (pgEnterKernel K T).spaces = spaceOf T.pgCr3 := by
      simp only [pgEnterKernel, halt]
      exact append_nil _
    rw [hroots] at hT
    exact hT
  · rw [pgLeaveKernel_pgCr3]
    exact h.aligned.1

end

/-- What the deletion of a space needs: nothing in the part it leaves out. -/
def SkippedEmptyAt (T : PgTask) (cr3 : Nat) : Prop := SkippedEmpty T.pg.mem (cr3 / 0x1000)

theorem TaskInv.delete (h : TaskInv K T) (hcur : T.pgCr3 ≠ 0 → SkippedEmptyAt T T.pgCr3)
    (halt : T.pgAltCr3 ≠ 0 → SkippedEmptyAt T T.pgAltCr3) : TaskInv K (pgDelete K T) := by
  unfold pgDelete
  split
  · exact h
  rename_i h0
  have hspaces : T.spaces = T.pgCr3 / 0x1000 :: spaceOf T.pgAltCr3 := by
    rw [PgTask.spaces, spaceOf_ne h0]
    rfl
  have htrees := h.trees
  rw [hspaces] at htrees
  obtain ⟨hT1, hsame⟩ := htrees.delete T.pgCr3 _ (List.Perm.refl _) (hcur h0)
  simp only
  split
  · rename_i ha
    refine ⟨?_, .inl rfl, fun hne => absurd ha hne, rfl, h.aligned.2⟩
    rw [ha] at hT1
    simp only [ha]
    exact hT1
  rename_i ha
  rw [spaceOf_ne ha] at hT1 hsame htrees
  -- the other space has not changed
  have hskip : SkippedEmpty (pgDeleteCr3 T.pg T.pgCr3 false).mem (T.pgAltCr3 / 0x1000) :=
    (halt ha).congr htrees.unlink (mem_singleton.mpr rfl) hsame
  exact ⟨(hT1.delete T.pgAltCr3 [] (List.Perm.refl _) hskip).1, .inl rfl,
    fun hne => absurd rfl hne, rfl, rfl⟩

theorem TaskInv.altAccept (h : TaskInv K T)
    (hskip : T.pgAltCr3 ≠ 0 → SkippedEmptyAt T T.pgAltCr3) : TaskInv K (pgAltAccept K T) := by
  unfold pgAltAccept
  simp only
  split
  · exact h
  rename_i hpre
  rw [not_or, Decidable.not_not] at hpre
  obtain ⟨ha, hcpu⟩ := hpre
  have hdel := (h.trees.delete T.pgAltCr3 (spaceOf T.pgCr3) (by
    rw [PgTask.spaces, spaceOf_ne ha]
    simp) (hskip ha)).1
  refine TaskInv.leave ⟨?_, ?_, fun hne => absurd rfl hne, h.aligned.1, rfl⟩
  · simp only [PgTask.spaces, pgEnterKernel]
    rw [show spaceOf 0 = [] from rfl, append_nil]
    exact hdel
  · have henter := (TaskInv.enter h).cpu
    exact henter

theorem TaskInv.altDelete (h : TaskInv K T)
    (hskip : T.pgAltCr3 ≠ 0 → T.pgCr3 = T.cpuCr3 → SkippedEmptyAt T T.pgCr3) :
    TaskInv K (pgAltDelete K T) := by
  unfold pgAltDelete
  simp only
  split
  · exact h
  rename_i hpre
  rw [not_or, Decidable.not_not] at hpre
  obtain ⟨ha, hcpu⟩ := hpre
  have hcur := h.alt ha
  have hdel := (h.trees.delete T.pgCr3 (spaceOf T.pgAltCr3) (by
    rw [PgTask.spaces, spaceOf_ne hcur]
    rfl) (hskip ha hcpu)).1
  rw [hcpu] at hdel
  refine TaskInv.leave ⟨?_, ?_, fun hne => absurd rfl hne, h.aligned.2, rfl⟩
  · simp only [PgTask.spaces, pgEnterKernel]
    rw [show spaceOf 0 = [] from rfl, append_nil]
    exact hdel
  have hal := h.aligned.1
  simp only [pgEnterKernel]
  split
  · omega
  · exact .inl rfl

/-! ## User pages -/

theorem range_pages (hsize : 0 < size) (hbase : 0 < pageBeg vaddr)
    (htop : vaddr + size ≤ addrTop) :
    pageBeg vaddr + pagesBetween (pageBeg vaddr) (pageEnd vaddr size) * 0x1000 ≤ addrTop ∧
      pageEnd vaddr size =
        (pageBeg vaddr + pagesBetween (pageBeg vaddr) (pageEnd vaddr size) * 0x1000) % addrTop ∧
      vaddr + size ≤ pageBeg vaddr + pagesBetween (pageBeg vaddr) (pageEnd vaddr size) * 0x1000 ∧
      pageBeg vaddr + pagesBetween (pageBeg vaddr) (pageEnd vaddr size) * 0x1000 <
        vaddr + size + 0x1000 := by
  unfold pageBeg at hbase
  -- the numbers of the first page and of the page after the last
  obtain ⟨b, hb⟩ : ∃ b, b = vaddr / 0x1000 := ⟨_, rfl⟩
  obtain ⟨e, he⟩ : ∃ e, e = (vaddr + size + 0xFFF) / 0x1000 := ⟨_, rfl⟩
  have hbe : 0 < b ∧ b < e ∧ e ≤ 0x10000000000000 ∧ vaddr + size ≤ e * 0x1000 ∧
      e * 0x1000 < vaddr + size + 0x1000 := by
    unfold addrTop at htop
    omega
  have hend : pageEnd vaddr size = e % 0x10000000000000 * 0x1000 := by
    unfold pageEnd addrTop at *
    rcases lt_or_ge (vaddr + size) 0x10000000000000000 with hlt | hge
    · omega
    · have htotal : vaddr + size = 0x10000000000000000 := by omega
      rw [he, htotal]
  have hcount : pagesBetween (b * 0x1000) (e % 0x10000000000000 * 0x1000) = e - b := by
    unfold pagesBetween addrSub addrTop
    rcases lt_or_ge e 0x10000000000000 with hlt | hge
    · omega
    · obtain rfl : e = 0x10000000000000 := by omega
      omega
  have hbeg : pageBeg vaddr = b * 0x1000 := by rw [hb, pageBeg]
  rw [hbeg, hend, hcount]
  unfold addrTop at *
  have hsum : b * 0x1000 + (e - b) * 0x1000 = e * 0x1000 := by omega
  rw [hsum]
  obtain ⟨-, -, hle, hlast⟩ := hbe
  refine ⟨by omega, ?_, hlast⟩
  exact (Nat.mul_mod_mul_right _ _ _).symm

theorem not_refused (h : ¬ userRangeRefused K T vaddr size) :
    T.cpuCr3 / 0x1000 * 0x1000 ≠ K.cr3 ∧ 0 < size ∧ userBase ≤ pageBeg vaddr ∧
      vaddr + size ≤ addrTop := by
  unfold userRangeRefused at h
  unfold userBase pageBeg
  simp only [not_or] at h
  obtain ⟨h1, -, h3, h4, h5⟩ := h
  refine ⟨h1, by omega, by omega, by omega⟩

theorem TaskInv.mapUser (h : TaskInv K T) (vaddr size type : Nat) :
    TaskInv K (pgMapUser K T vaddr size type).2 := by
  unfold pgMapUser
  split
  · exact h
  · rename_i href
    obtain ⟨hne, hsize, hbase, htop⟩ := not_refused href
    obtain ⟨hend, hlast, -, -⟩ := range_pages hsize (lt_of_lt_of_le (by decide) hbase) htop
    exact (h.enter.withTrees (h.trees.mapLoop (h.root hne) hbase type hend hlast)).leave

/-- What unmapping needs: no page of the range has bit 63 set. -/
def ExecutableRange (T : PgTask) (vaddr size : Nat) : Prop :=
  ∀ a, pageBeg vaddr ≤ a → a < vaddr + size → Executable T.pg.mem T.cpuCr3 a

theorem pgGetEntry_of_page {mem : PageMem} {cr3 a b t i : Nat} (h : a / 0x1000 = b / 0x1000)
    (hget : pgGetEntry mem cr3 b = some (t, i)) : pgGetEntry mem cr3 a = some (t, i) := by
  obtain ⟨hle, htab, rfl⟩ := pgGetEntry_eq_some.mp hget
  refine pgGetEntry_eq_some.mpr ⟨?_, ?_, (pgIndex_page h (le_refl 3)).symm⟩
  · omega
  · rwa [tableAt_page h 3 (le_refl 3)]

theorem NoPage.of_page {mem : PageMem} {cr3 a b : Nat} (hn : NoPage mem cr3 a)
    (h : a / 0x1000 = b / 0x1000) : NoPage mem cr3 b :=
  fun t i hget => hn t i (pgGetEntry_of_page h hget)

theorem pageBeg_add_lt {n j : Nat} (hlast : pageBeg vaddr + n * 0x1000 < vaddr + size + 0x1000)
    (hj : j < n) : pageBeg vaddr + j * 0x1000 < vaddr + size := by
  have hmul : j * 0x1000 + 0x1000 ≤ n * 0x1000 := by omega
  have hsum := lt_of_le_of_lt (Nat.add_le_add_left hmul (pageBeg vaddr)) hlast
  rw [← add_assoc] at hsum
  exact Nat.lt_of_add_lt_add_right hsum

theorem page_of_range {n a : Nat} (hcover : vaddr + size ≤ pageBeg vaddr + n * 0x1000)
    (h1 : vaddr ≤ a) (h2 : a < vaddr + size) :
    ∃ j < n, (pageBeg vaddr + j * 0x1000) / 0x1000 = a / 0x1000 := by
  unfold pageBeg at hcover ⊢
  have hle : vaddr / 0x1000 ≤ a / 0x1000 := Nat.div_le_div_right h1
  refine ⟨a / 0x1000 - vaddr / 0x1000, by omega, ?_⟩
  omega

theorem TaskInv.unmapUser (h : TaskInv K T) (hexec : ExecutableRange T vaddr size) :
    TaskInv K (pgUnmapUser K T vaddr size).2 ∧
      (¬ userRangeRefused K T vaddr size → ∀ a, vaddr ≤ a → a < vaddr + size →
        NoPage (pgUnmapUser K T vaddr size).2.pg.mem T.cpuCr3 a) := by
  unfold pgUnmapUser
  split
  · rename_i href
    exact ⟨h, fun hno => absurd href hno⟩
  rename_i href
  obtain ⟨hne, hsize, hbase, htop⟩ := not_refused href
  obtain ⟨hend, -, hcover, hlast⟩ := range_pages hsize (lt_of_lt_of_le (by decide) hbase) htop
  obtain ⟨htrees, -, hgone⟩ := h.trees.unmapLoop (h.root hne) hbase hend
    fun j hj => hexec _ (Nat.le_add_right _ _) (pageBeg_add_lt hlast hj)
  refine ⟨(h.enter.withTrees htrees).leave, fun _ a h1 h2 => ?_⟩
  rw [pgLeaveKernel_pg]
  obtain ⟨j, hj, hpage⟩ := page_of_range hcover h1 h2
  exact (hgone j hj).of_page hpage

theorem TaskInv.protectUser (h : TaskInv K T) (hne : T.cpuCr3 / 0x1000 * 0x1000 ≠ K.cr3)
    (vaddr size type : Nat) : TaskInv K (pgProtectUser K T vaddr size type) := by
  unfold pgProtectUser
  simp only
  obtain ⟨e, he⟩ : ∃ e, e = (vaddr + (if size > 0 then size - 1 else 0)) % addrTop := ⟨_, rfl⟩
  rw [← he]
  split
  · exact h
  rename_i hpre
  simp only [not_or] at hpre
  have hend : pageBeg vaddr + pagesBetween (pageBeg vaddr) ((pageBeg e + 0x1000) % addrTop) *
      0x1000 ≤ addrTop := by
    unfold pagesBetween addrSub pageBeg
    unfold addrTop at *
    omega
  refine (h.enter.withTrees (h.trees.protectLoop (h.root hne) type ?_ hend)).leave
  unfold userBase pageBeg
  omega

/-! ## Runs -/

inductive PgOp where
  | create
  | delete
  | altCreate
  | altAccept
  | altDelete
  | enterKernel
  | leaveKernel
  | mapUser (vaddr size type : Nat)
  | unmapUser (vaddr size : Nat)
  | protectUser (vaddr size type : Nat)
  | other

/-- One call, or a step of the rest of the kernel, which leaves the frames
of the task alone. `pg_protect_user` is called by programs, which do not
run on the tables of the kernel. -/
inductive SpaceStep (K : PgKernel) : PgTask → PgOp → PgTask → Prop where
  | create (T : PgTask) : SpaceStep K T .create (pgCreate K T).2
  | delete (T : PgTask) : SpaceStep K T .delete (pgDelete K T)
  | altCreate (T : PgTask) : SpaceStep K T .altCreate (pgAltCreate K T).2
  | altAccept (T : PgTask) : SpaceStep K T .altAccept (pgAltAccept K T)
  | altDelete (T : PgTask) : SpaceStep K T .altDelete (pgAltDelete K T)
  | enterKernel (T : PgTask) : SpaceStep K T .enterKernel (pgEnterKernel K T)
  | leaveKernel (T : PgTask) : SpaceStep K T .leaveKernel (pgLeaveKernel T)
  | mapUser (T : PgTask) (vaddr size type : Nat) :
      SpaceStep K T (.mapUser vaddr size type) (pgMapUser K T vaddr size type).2
  | unmapUser (T : PgTask) (vaddr size : Nat) :
      SpaceStep K T (.unmapUser vaddr size) (pgUnmapUser K T vaddr size).2
  | protectUser (T : PgTask) (vaddr size type : Nat) :
      T.cpuCr3 / 0x1000 * 0x1000 ≠ K.cr3 →
      SpaceStep K T (.protectUser vaddr size type) (pgProtectUser K T vaddr size type)
  | other (T : PgTask) (mem : PageMem) (mm : MmState) :
      mm.mmReady = true → HintCovers mm → mm.mmBitmapSize = T.pg.mm.mmBitmapSize →
      (∀ f ∈ frames (spaceNodes T.pg.mem T.spaces),
        mem f = T.pg.mem f ∧ frameUsed mm.mmBitmap f = true) →
      SpaceStep K T .other { T with pg := { T.pg with mem := mem, mm := mm } }

/-- The condition under which a call gives back what it should. -/
def SpaceStepOk (K : PgKernel) (T : PgTask) : PgOp → Prop
  | .unmapUser vaddr size => ¬ userRangeRefused K T vaddr size → ExecutableRange T vaddr size
  | .delete => (T.pgCr3 ≠ 0 → SkippedEmptyAt T T.pgCr3) ∧
      (T.pgAltCr3 ≠ 0 → SkippedEmptyAt T T.pgAltCr3)
  | .altAccept => T.pgAltCr3 ≠ 0 → SkippedEmptyAt T T.pgAltCr3
  | .altDelete => T.pgAltCr3 ≠ 0 → T.pgCr3 = T.cpuCr3 → SkippedEmptyAt T T.pgCr3
  | _ => True

theorem TaskInv.step {T' : PgTask} {op : PgOp} (h : TaskInv K T) (hok : SpaceStepOk K T op)
    (hs : SpaceStep K T op T') : TaskInv K T' := by
  cases hs with
  | create => exact h.create
  | delete => exact h.delete hok.1 hok.2
  | altCreate => exact h.altCreate
  | altAccept => exact h.altAccept hok
  | altDelete => exact h.altDelete hok
  | enterKernel => exact h.enter
  | leaveKernel => exact h.leave
  | mapUser vaddr size type => exact h.mapUser vaddr size type
  | unmapUser vaddr size =>
    by_cases href : userRangeRefused K T vaddr size
    · rwa [pgUnmapUser, if_pos href]
    · exact (h.unmapUser (hok href)).1
  | protectUser vaddr size type hne => exact h.protectUser hne vaddr size type
  | other mem mm hready hhint hsize hsame =>
    refine h.withTrees ?_
    obtain ⟨hT, hforest⟩ : Trees { T.pg with mem := mem } T.spaces [] ∧ _ :=
      h.trees.congr (fun g hg => (hsame g hg).1) rfl rfl rfl rfl
    have hheld := hT.held
    refine ⟨⟨hready, hhint, hsize ▸ hheld.whole_pages, hsize ▸ hheld.size, hheld.nodup,
      fun f hf => ?_, hheld.log⟩, hT.memory, hT.entries⟩
    obtain ⟨h1, h2, -⟩ := hheld.used f hf
    refine ⟨h1, hsize ▸ h2, (hsame f ?_).2⟩
    rwa [← hforest]

/-- Every frame that was taken was given back once, or belongs to one place
of the address spaces. -/
structure Conserved (T : PgTask) : Prop where
  given : T.pg.taken.Perm (T.pg.freed ++ frames (spaceNodes T.pg.mem T.spaces))
  distinct : (frames (spaceNodes T.pg.mem T.spaces)).Nodup
  used : ∀ f ∈ frames (spaceNodes T.pg.mem T.spaces), frameUsed T.pg.mm.mmBitmap f = true
  memory : T.pg.userMemory = 0x1000 * pageCount (spaceNodes T.pg.mem T.spaces)

theorem TaskInv.conserved (h : TaskInv K T) : Conserved T :=
  ⟨h.trees.held.log, h.trees.held.nodup, fun f hf => (h.trees.held.used f hf).2.2, h.trees.memory⟩

/-- A task without address spaces, at the start. -/
structure NoSpace (K : PgKernel) (T : PgTask) : Prop where
  booted : Booted T.pg.mm
  size : T.pg.mm.mmBitmapSize ≤ 0x100000000
  current : T.pgCr3 = 0
  alt : T.pgAltCr3 = 0
  cpu : T.cpuCr3 = K.cr3
  taken : T.pg.taken = []
  freed : T.pg.freed = []
  memory : T.pg.userMemory = 0

theorem NoSpace.inv (h : NoSpace K T) : TaskInv K T := by
  have hspaces : T.spaces = [] := by
    rw [PgTask.spaces, h.current, h.alt]
    rfl
  refine ⟨?_, .inl h.cpu, fun hne => absurd h.alt hne, ?_⟩
  · rw [hspaces]
    refine ⟨⟨h.booted.ready, ⟨?_, fun i h1 h2 => ?_⟩, h.booted.whole_pages, h.size,
      nodup_nil, fun f hf => absurd hf not_mem_nil, ?_⟩, ?_,
      fun h p t hin => absurd hin not_mem_nil⟩
    · rw [h.booted.no_hint]
      omega
    · rw [h.booted.no_hint] at h1
      omega
    · rw [h.taken, h.freed]
      exact List.Perm.refl _
    · rw [h.memory]
      rfl
  · rw [h.current, h.alt]
    omega

/-- **User pages are conserved** in the runs in which no page with bit 63 is
unmapped, and no space is deleted with page tables in the part that
`pg_delete_cr3` leaves out. -/
theorem conserved_of_run {T0 : PgTask} (h0 : NoSpace K T0) {ops : List PgOp}
    (hrun : Dancy.Lib.Run (Dancy.Lib.Guarded (SpaceStepOk K) (SpaceStep K)) T0 ops T) :
    Conserved T ∧ (T.pgCr3 = 0 → T.pg.taken.Perm T.pg.freed ∧ T.pg.userMemory = 0) ∧
      ∀ vaddr size, ExecutableRange T vaddr size → ¬ userRangeRefused K T vaddr size →
        ∀ a, vaddr ≤ a → a < vaddr + size →
          NoPage (pgUnmapUser K T vaddr size).2.pg.mem T.cpuCr3 a := by
  have hinv : TaskInv K T := hrun.invariant (fun _ _ _ h hs => h.step hs.1 hs.2) h0.inv
  refine ⟨hinv.conserved, fun hcur => ?_, fun vaddr size hexec => (hinv.unmapUser hexec).2⟩
  have halt : T.pgAltCr3 = 0 := by
    by_contra hne
    exact hinv.alt hne hcur
  have hspaces : T.spaces = [] := by
    rw [PgTask.spaces, hcur, halt]
    rfl
  have hgiven := hinv.conserved.given
  have hmem := hinv.conserved.memory
  rw [hspaces] at hgiven hmem
  exact ⟨by simpa [spaceNodes, forest, frames] using hgiven, hmem⟩

/-- A kernel with its tables in the frames 1 and 2. -/
def sampleKernel : PgKernel := ⟨0x1000, 0x2000, rfl⟩

/-- A task of it: of the 128 MiB of memory the last eight frames are free. -/
def sampleTask : PgTask where
  pg := {
    mem := fun _ _ => 0
    mm := ⟨true, 0x1000, 0, fun i => if i = 4095 then 0 else 0xFF⟩
    userMemory := 0
    nxbit := true
    taken := []
    freed := [] }
  pgCr3 := 0
  pgAltCr3 := 0
  pgState := 0
  taskCr3 := 0x1000
  cpuCr3 := 0x1000

theorem sampleTask_noSpace : NoSpace sampleKernel sampleTask :=
  ⟨⟨rfl, ⟨1, rfl⟩, rfl⟩, by decide, rfl, rfl, rfl, rfl, rfl, rfl⟩

/-- A space with one page, and without it again. -/
def pageTask : PgTask :=
  (pgMapUser sampleKernel (pgCreate sampleKernel sampleTask).2 0x10000000 0x1000 0).2
def emptiedTask : PgTask := (pgUnmapUser sampleKernel pageTask 0x10000000 0x1000).2

/-- A page is mapped and unmapped, and its space is deleted. -/
theorem conserved_of_run_page : Conserved pageTask ∧
    (pgDelete sampleKernel emptiedTask).pg.taken.Perm (pgDelete sampleKernel emptiedTask).pg.freed := by
  have hget : pgGetEntry pageTask.pg.mem pageTask.cpuCr3 0x10000000 = some (32763, 0) := by decide
  have hunmap : SpaceStepOk sampleKernel pageTask (.unmapUser 0x10000000 0x1000) := by
    intro _ a hlow hhigh t i h
    unfold pageBeg at hlow
    cases hget.symm.trans (pgGetEntry_of_page (show 0x10000000 / 0x1000 = a / 0x1000 by omega) h)
    decide
  have hempty : ∀ i < 256, 0 < i →
      present (emptiedTask.pg.mem (emptiedTask.pgCr3 / 0x1000) i) = false := by decide +kernel
  have hdelete : SpaceStepOk sampleKernel emptiedTask .delete :=
    ⟨fun _ i k h0 hi _ hp => absurd hp (by rw [hempty i hi h0]; decide), fun h => absurd (by decide) h⟩
  have hmap : Dancy.Lib.Run (Dancy.Lib.Guarded (SpaceStepOk sampleKernel) (SpaceStep sampleKernel))
      sampleTask [.create, .mapUser 0x10000000 0x1000 0] pageTask :=
    .snoc (.single ⟨show SpaceStepOk _ _ .create from trivial, .create _⟩) ⟨trivial, .mapUser _ _ _ _⟩
  exact ⟨(conserved_of_run sampleTask_noSpace hmap).1, ((conserved_of_run sampleTask_noSpace
    ((hmap.snoc ⟨hunmap, .unmapUser _ _ _⟩).snoc ⟨hdelete, .delete _⟩)).2.1 (by decide)).1⟩

/-- The space of `sampleTask` with one page that must not be executed. -/
def noexecTask : PgTask :=
  (pgMapUser sampleKernel (pgCreate sampleKernel sampleTask).2 0x10000000 0x1000 pgNoexec).2

/-- Unmapping a page that must not be executed frees a frame that was never
taken: bit 63 of the entry is part of its number. -/
theorem noexec_page_not_freed :
    ¬ ∀ (K : PgKernel) (T0 : PgTask) (ops : List PgOp) (T : PgTask), NoSpace K T0 →
      Dancy.Lib.Run (SpaceStep K) T0 ops T → Conserved T := by
  intro hall
  have hrun : Dancy.Lib.Run (SpaceStep sampleKernel) sampleTask
      ([.create] ++ [.mapUser 0x10000000 0x1000 pgNoexec] ++ [.unmapUser 0x10000000 0x1000])
      (pgUnmapUser sampleKernel noexecTask 0x10000000 0x1000).2 :=
    .snoc (.snoc (.single (.create _)) (.mapUser _ _ _ _)) (.unmapUser _ _ _)
  have hgiven := (hall _ _ _ _ sampleTask_noSpace hrun).given
  have hfreed : (pgUnmapUser sampleKernel noexecTask 0x10000000 0x1000).2.pg.freed =
      [0x8000000000000 + 32764] := by decide
  have htaken : (pgUnmapUser sampleKernel noexecTask 0x10000000 0x1000).2.pg.taken =
      [32763, 32764, 32765, 32766, 32767] := by decide
  rw [hfreed, htaken] at hgiven
  have hin := hgiven.mem_iff.mpr (mem_append_left _ (mem_singleton.mpr rfl))
  revert hin
  decide

end Dancy.Pg
