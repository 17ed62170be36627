import Dancy.Pg.Spaces

/-!
# Mapping, unmapping and protecting keep the trees

Each of these functions walks to a table of the trees and writes one of
its entries. The key of a table is the part of the address that leads to it.
-/

namespace Dancy.Pg

open Dancy.Mm Dancy.Lib.Radix List Option

variable {s s' : PgState} {roots : List Nat} {extra : List (Node Nat)} {h p t i a cr3 : Nat}

/-- The key of the table of level `k`. -/
def pgKey (a k : Nat) : Nat := a >>> (48 - 9 * k)

theorem pgKey_zero (ha : a < userLimit) : pgKey a 0 = 0 := by
  unfold userLimit at ha
  rw [pgKey, Nat.shiftRight_eq_div_pow]
  omega

theorem pgKey_succ {k : Nat} (hk : k ≤ 3) : pgKey a k * 512 + pgIndex a k = pgKey a (k + 1) := by
  have hshift : pgKey a k = a >>> (39 - 9 * k) / 512 := by
    rw [pgKey, show 48 - 9 * k = (39 - 9 * k) + 9 by omega, Nat.shiftRight_add,
      Nat.shiftRight_eq_div_pow _ 9]
  have hnext : pgKey a (k + 1) = a >>> (39 - 9 * k) := by
    rw [pgKey]
    congr 1
    omega
  rw [hshift, hnext, pgIndex]
  omega

theorem pgIndex_mem (ha : userBase ≤ a) (hlim : a < userLimit) {k : Nat} (hk : k ≤ 3) :
    pgIndex a k ∈ pgSlots (3 - k) (pgKey a k) := by
  unfold userBase at ha
  unfold userLimit at hlim
  rcases (by omega : k = 0 ∨ k = 1 ∨ k = 2 ∨ k = 3) with rfl | rfl | rfl | rfl
  · have hlt : a >>> 39 < 256 := by
      omega
    exact mem_range.mpr (lt_of_le_of_lt (Nat.mod_le _ _) hlt)
  · exact mem_range.mpr (Nat.mod_lt _ (by omega))
  · have hkey : pgKey a 2 = a / 0x40000000 := Nat.shiftRight_eq_div_pow a 30
    have hidx : pgIndex a 2 = a / 0x200000 % 512 := by
      rw [pgIndex, Nat.shiftRight_eq_div_pow]
    show pgIndex a 2 ∈ if pgKey a 2 = 0 then range' 128 384 else range 512
    split
    · rw [mem_range'_1]
      omega
    · exact mem_range.mpr (Nat.mod_lt _ (by omega))
  · exact mem_range.mpr (Nat.mod_lt _ (by omega))

theorem Trees.child (hT : Trees s roots extra) (hin : ⟨h + 1, p, t⟩ ∈ spaceNodes s.mem roots)
    (hi : i ∈ pgSlots h p) {c : Nat} (hk : pgKid h (s.mem t i) = some c) :
    ⟨h, p * 512 + i, c⟩ ∈ spaceNodes s.mem roots := by
  refine mem_forest_of_slot hT.nodup hin hi ?_
  have hslot : slot pgShape s.mem h p t i = _ := slot_some hk
  rw [hslot]
  exact mem_append_right _ (mem_singleton.mpr rfl)

theorem Trees.root (hroot : cr3 / 0x1000 ∈ roots) (ha : a < userLimit) :
    ⟨4, pgKey a 0, cr3 / 0x1000⟩ ∈ spaceNodes s.mem roots := by
  rw [pgKey_zero ha]
  exact mem_flatMap.mpr ⟨_, hroot, by simp [branch]⟩

theorem Trees.walk (hT : Trees s roots extra) (hroot : cr3 / 0x1000 ∈ roots) (ha : userBase ≤ a)
    (hlim : a < userLimit) : ∀ {k t : Nat}, k ≤ 3 → tableAt s.mem (cr3 / 0x1000) a k = some t →
      ⟨4 - k, pgKey a k, t⟩ ∈ spaceNodes s.mem roots := by
  intro k
  induction k with
  | zero =>
    intro t _ ht
    obtain rfl := (some.inj ht)
    exact Trees.root hroot hlim
  | succ k ih =>
    intro t hk ht
    obtain ⟨u, hu, hlead, rfl⟩ := tableAt_succ.mp ht
    have hin := ih (by omega) hu
    have hi := pgIndex_mem ha hlim (show k ≤ 3 by omega)
    obtain ⟨h, hh⟩ : ∃ h, 3 - k = h + 1 := ⟨2 - k, by omega⟩
    rw [show 4 - k = h + 1 + 1 by omega] at hin
    rw [hh] at hi
    have hok := hT.entries (h + 1) _ u hin _ hi
    have hchild := hT.child hin hi (hok.child (leads_present hlead)).1
    rw [pgKey_succ (by omega)] at hchild
    rwa [show 4 - (k + 1) = h + 1 by omega]

/-! ## Mapping -/

theorem EntryOk.zero (h : Nat) : EntryOk h 0 := by
  cases h with
  | zero | succ h => exact .inl rfl

variable {f : Nat}

theorem nodes_of_zero {mem : PageMem} (hz : ∀ j, mem f j = 0) : nodes pgShape mem h p f = [] := by
  cases h with
  | zero => rfl
  | succ h => exact nodes_eq_nil fun i _ => by rw [hz i]; exact pgKid_zero h

theorem Trees.enter (hT : Trees s roots extra) (hin : ⟨h + 2, p, t⟩ ∈ spaceNodes s.mem roots)
    (hi : i ∈ pgSlots (h + 1) p) {testLarge : Bool} {o : Option Nat}
    (hr : pgEnterTable s t i testLarge = (o, s')) :
    Trees s' roots extra ∧
      ∀ u, o = some u → ⟨h + 1, p * 512 + i, u⟩ ∈ spaceNodes s'.mem roots := by
  have hok := hT.entries (h + 1) p t hin i hi
  unfold pgEnterTable at hr
  split at hr
  · rename_i hpres
    rw [Bool.not_eq_true'] at hpres
    have halloc := mmAllocPage_spec hT.held.ready hT.held.hint
    simp only at hr
    split at hr
    · rename_i h0
      cases hr
      exact ⟨hT.take_none halloc h0, by simp⟩
    rename_i h0
    obtain ⟨-, haddr, -, hlt, -⟩ := hT.held.take_some halloc h0 (h + 1) (p * 512 + i)
    have hT1 := hT.take_table halloc h0 h (p * 512 + i)
    obtain ⟨f, hf⟩ : ∃ f, f = (mmAllocPage s.mm).1 / 0x1000 := ⟨_, rfl⟩
    obtain ⟨s1, hs1⟩ : ∃ s1, s1 = s.take (mmAllocPage s.mm) := ⟨_, rfl⟩
    rw [← hf] at hT1 haddr hlt hr
    rw [← hs1] at hT1 hr
    rw [haddr] at hr
    have hmem1 : s1.mem = s.mem := by rw [hs1]; rfl
    have hfx : f ∈ frames (⟨h + 1, p * 512 + i, f⟩ :: extra) := by simp [frames]
    obtain ⟨hT2, hsame⟩ := hT1.zeroFrame hfx
    have hin1 : ⟨h + 2, p, t⟩ ∈ spaceNodes s1.mem roots := by rw [hmem1]; exact hin
    have hne : t ≠ f := fun heq => hT1.extra_ne hfx (mem_frames_of_mem hin1) heq.symm
    have hin2 : ⟨h + 2, p, t⟩ ∈ spaceNodes (s1.zeroFrame f).mem roots := by
      rwa [hsame]
    have hzero : ∀ j, ((s1.zeroFrame f).write t i (f * 0x1000 ||| 0x27)).mem f j = 0 := by
      intro j
      rw [write_mem, if_neg fun heq => hne heq.1.symm]
      simp [PgState.zeroFrame]
    have hentry : ((s1.zeroFrame f).write t i (f * 0x1000 ||| 0x27)).mem t i
        = f * 0x1000 ||| 0x27 := by
      rw [write_mem, if_pos ⟨rfl, rfl⟩]
    have hold : slot pgShape (s1.zeroFrame f).mem (h + 1) p t i = [] := by
      refine slot_none ?_
      have hsame : (s1.zeroFrame f).mem t i = s.mem t i := by
        rw [← hmem1]
        simp only [PgState.zeroFrame, Function.update_of_ne hne]
      rw [hsame, hok.absent hpres]
      exact pgKid_zero (h + 1)
    have hnew : slot pgShape ((s1.zeroFrame f).write t i (f * 0x1000 ||| 0x27)).mem (h + 1) p t i
        = [⟨h + 1, p * 512 + i, f⟩] := by
      have hsome : slot pgShape ((s1.zeroFrame f).write t i (f * 0x1000 ||| 0x27)).mem
          (h + 1) p t i = _ := slot_some (by rw [hentry]; exact pgKid_table h f hlt)
      rw [hsome, nodes_of_zero hzero]
      rfl
    have hmove : (((⟨h + 1, p * 512 + i, f⟩ : Node Nat) :: extra) ++ []).Perm
        (extra ++ [(⟨h + 1, p * 512 + i, f⟩ : Node Nat)]) := by
      rw [append_nil]
      exact (perm_append_singleton _ _).symm
    have hentries : ∀ h' p' t', ⟨h' + 1, p', t'⟩ ∈ [(⟨h + 1, p * 512 + i, f⟩ : Node Nat)] →
        ∀ j ∈ pgSlots h' p', EntryOk h'
          (((s1.zeroFrame f).write t i (f * 0x1000 ||| 0x27)).mem t' j) := by
      intro h' p' t' hmem j _
      simp only [mem_singleton, Node.mk.injEq] at hmem
      rw [hmem.2.2, hzero]
      exact EntryOk.zero h'
    obtain ⟨hT3, hnodes⟩ := hT2.write hin2 hi (.inr ⟨f, hlt, rfl⟩) extra hold hnew hmove hentries
    · cases hr
      refine ⟨hT3, fun u hu => ?_⟩
      rw [hentry, tableOf_or f (by omega), some.injEq] at hu
      subst hu
      exact hnodes _ (mem_singleton.mpr rfl)
  · rename_i hpres
    rw [Bool.not_eq_true', Bool.not_eq_false] at hpres
    split at hr
    · cases hr
      exact ⟨hT, by simp⟩
    · cases hr
      refine ⟨hT, fun u hu => ?_⟩
      obtain rfl := some.inj hu
      exact hT.child hin hi (hok.child hpres).1

theorem pageBits_bounds (nxbit : Bool) (type : Nat) :
    pageBits nxbit type % 0x8000000000000000 < 0x1000 ∧
      pageBits nxbit type < 0x10000000000000000 := by
  unfold pageBits
  split_ifs <;> decide

theorem or_top {x : Nat} (hx : x < 0x8000000000000000) :
    x ||| 0x8000000000000000 = x + 0x8000000000000000 := by
  have hor := Nat.two_pow_add_eq_or_of_lt (i := 63) hx 1
  rw [Nat.or_comm, add_comm]
  exact hor.symm

theorem page_entry (hf : f < 0x10000000000) (nxbit : Bool) (type : Nat) :
    EntryOk 0 (f * 0x1000 ||| pageBits nxbit type) ∧
      pgKid 0 (f * 0x1000 ||| pageBits nxbit type) = some f := by
  obtain ⟨hlow, htop⟩ := pageBits_bounds nxbit type
  have huser : userBit (f * 0x1000 ||| pageBits nxbit type) = true := by
    rw [userBit, testBit_or_page f _ 2 (by omega)]
    exact pageBits_ne nxbit type
  -- bit 63 lies above the address and the low flags
  have hsum : f * 0x1000 ||| pageBits nxbit type = f * 0x1000 + pageBits nxbit type := by
    rcases lt_or_ge (pageBits nxbit type) 0x8000000000000000 with hb | hb
    · exact or_page f (by omega)
    have hsplit : pageBits nxbit type =
        pageBits nxbit type % 0x8000000000000000 ||| 0x8000000000000000 := by
      rw [or_top (by omega)]
      omega
    rw [hsplit, ← Nat.or_assoc, or_page f hlow, or_top (by omega), or_top (by omega)]
    omega
  have hne : f * 0x1000 ||| pageBits nxbit type ≠ 0 := by
    intro h0
    rw [h0] at huser
    simp [userBit] at huser
  refine ⟨.inr ⟨huser, ?_, ?_⟩, ?_⟩
  · omega
  · omega
  · rw [pgKid, if_neg hne, frameOf, hsum, some.injEq]
    omega

theorem slot_leaf (mem : PageMem) (p t i : Nat) :
    slot pgShape mem 0 p t i =
      if mem t i = 0 then [] else [⟨0, p * 512 + i, frameOf (mem t i)⟩] := by
  split
  · rename_i h0
    exact slot_none (by rw [h0]; exact pgKid_zero 0)
  · rename_i h0
    exact slot_some (by simp only [pgShape, pgKid, if_neg h0])

/-- A page is written into its slot, or taken out of it; the page that was
there is not linked any more. -/
theorem Trees.writeLeaf (hT : Trees s roots extra) (hin : ⟨1, p, t⟩ ∈ spaceNodes s.mem roots)
    (hi : i ∈ pgSlots 0 p) {v : Nat} (hv : EntryOk 0 v) (extra' : List (Node Nat))
    (hmove : (extra ++ slot pgShape s.mem 0 p t i).Perm
      (extra' ++ if v = 0 then [] else [⟨0, p * 512 + i, frameOf v⟩])) :
    Trees (s.write t i v) roots extra' := by
  have hentry : (s.write t i v).mem t i = v := by rw [write_mem, if_pos ⟨rfl, rfl⟩]
  have hnew : slot pgShape (s.write t i v).mem 0 p t i =
      if v = 0 then [] else [⟨0, p * 512 + i, frameOf v⟩] := by
    rw [slot_leaf, hentry]
  refine (hT.write hin hi hv extra' rfl hnew hmove fun h' p' t' hmem j _ => ?_).1
  split at hmem
  · cases hmem
  · simp at hmem

theorem Trees.setPage (hT : Trees s roots (⟨0, p * 512 + i, f⟩ :: extra))
    (hin : ⟨1, p, t⟩ ∈ spaceNodes s.mem roots) (hi : i ∈ pgSlots 0 p) (hf : f < 0x10000000000)
    (type : Nat) : Trees (pgSetPage s t i (f * 0x1000) type) roots extra := by
  obtain ⟨hok, hkid⟩ := page_entry hf s.nxbit type
  obtain ⟨v, hv⟩ : ∃ v, v = f * 0x1000 ||| pageBits s.nxbit type := ⟨_, rfl⟩
  rw [← hv] at hok hkid
  have hv0 : v ≠ 0 := by
    rintro rfl
    simp [pgKid] at hkid
  have hframe : frameOf v = f := by
    rw [pgKid, if_neg hv0] at hkid
    exact some.inj hkid
  have hdiv : f * 0x1000 / 0x1000 * 0x1000 = f * 0x1000 := by omega
  have hmove : ∀ old : List (Node Nat), ((⟨0, p * 512 + i, f⟩ :: extra) ++ old).Perm
        ((old ++ extra) ++ if v = 0 then [] else [⟨0, p * 512 + i, frameOf v⟩]) := by
    intro old
    rw [if_neg hv0, hframe]
    refine List.Perm.trans ?_ (perm_append_singleton _ _).symm
    exact (perm_append_comm).cons _
  have hT' := hT.writeLeaf hin hi hok (slot pgShape s.mem 0 p t i ++ extra) (hmove _)
  rw [slot_leaf] at hT'
  unfold pgSetPage
  simp only [hdiv]
  rw [← hv]
  split
  · rename_i h0
    rw [if_pos h0] at hT'
    exact hT'
  · rename_i h0
    rw [if_neg h0] at hT'
    exact hT'.free_page rfl

/-- **Mapping a page.** The page becomes a node, unless `pg_map_virtual`
returns `1`. -/
theorem Trees.mapVirtual (hT : Trees s roots (⟨0, pgKey a 4, f⟩ :: extra))
    (hroot : cr3 / 0x1000 ∈ roots) (ha : userBase ≤ a) (hf : f < 0x10000000000) (type : Nat) :
    ((pgMapVirtual s cr3 a (f * 0x1000) type).1 = true →
      Trees (pgMapVirtual s cr3 a (f * 0x1000) type).2 roots (⟨0, pgKey a 4, f⟩ :: extra)) ∧
    ((pgMapVirtual s cr3 a (f * 0x1000) type).1 = false →
      Trees (pgMapVirtual s cr3 a (f * 0x1000) type).2 roots extra) := by
  by_cases hlim : a >>> 39 > 0xFF
  · simp only [pgMapVirtual, if_pos hlim]
    exact ⟨fun _ => hT, by simp⟩
  have hle : a >>> 39 ≤ 0xFF := by omega
  have hlt := limit_of_shift hle
  have hidx := pgIndex_zero hle
  have hslot := @pgIndex_mem a ha hlt
  unfold pgMapVirtual
  simp only [if_neg hlim]
  rw [← hidx]
  obtain ⟨⟨o1, s1⟩, hr1⟩ : ∃ r, r = pgEnterTable s (cr3 / 0x1000) (pgIndex a 0) false := ⟨_, rfl⟩
  obtain ⟨hT1, hn1⟩ := hT.enter (Trees.root hroot hlt) (@hslot 0 (by omega)) hr1.symm
  rw [← hr1]
  cases o1 with
  | none => exact ⟨fun _ => hT1, by simp⟩
  | some t1 =>
    simp only
    have hin1 := hn1 t1 rfl
    rw [pgKey_succ (by omega)] at hin1
    obtain ⟨⟨o2, s2⟩, hr2⟩ : ∃ r, r = pgEnterTable s1 t1 (pgIndex a 1) true := ⟨_, rfl⟩
    obtain ⟨hT2, hn2⟩ := hT1.enter hin1 (@hslot 1 (by omega)) hr2.symm
    rw [← hr2]
    cases o2 with
    | none => exact ⟨fun _ => hT2, by simp⟩
    | some t2 =>
      simp only
      have hin2 := hn2 t2 rfl
      rw [pgKey_succ (by omega)] at hin2
      obtain ⟨⟨o3, s3⟩, hr3⟩ : ∃ r, r = pgEnterTable s2 t2 (pgIndex a 2) true := ⟨_, rfl⟩
      obtain ⟨hT3, hn3⟩ := hT2.enter hin2 (@hslot 2 (by omega)) hr3.symm
      rw [← hr3]
      cases o3 with
      | none => exact ⟨fun _ => hT3, by simp⟩
      | some t3 =>
        have hin3 := hn3 t3 rfl
        rw [pgKey_succ (by omega)] at hin3
        rw [← pgKey_succ (by omega)] at hT3
        exact ⟨by simp, fun _ => hT3.setPage hin3 (@hslot 3 (by omega)) hf type⟩

theorem Trees.mapPage (hT : Trees s roots []) (hroot : cr3 / 0x1000 ∈ roots) (ha : userBase ≤ a)
    (type : Nat) : Trees (pgMapPage s cr3 a type).2 roots [] := by
  have halloc := mmAllocPage_spec hT.held.ready hT.held.hint
  unfold pgMapPage
  simp only
  split
  · rename_i h0
    exact hT.take_none halloc h0
  rename_i h0
  obtain ⟨-, haddr, -, hlt, -⟩ := hT.held.take_some halloc h0 0 (pgKey a 4)
  obtain ⟨f, hf⟩ : ∃ f, f = (mmAllocPage s.mm).1 / 0x1000 := ⟨_, rfl⟩
  have hT1 := hT.take_page halloc h0 (pgKey a 4)
  rw [← hf] at hT1 haddr hlt ⊢
  rw [haddr]
  obtain ⟨hT2, -⟩ := hT1.zeroFrame (show f ∈ frames [⟨0, pgKey a 4, f⟩] by simp [frames])
  obtain ⟨hfail, hdone⟩ := hT2.mapVirtual hroot ha hlt type
  obtain ⟨⟨r, s'⟩, hr⟩ : ∃ r, r = pgMapVirtual
    { (s.take (mmAllocPage s.mm)).zeroFrame f with
      userMemory := ((s.take (mmAllocPage s.mm)).zeroFrame f).userMemory + 0x1000 }
      cr3 a (f * 0x1000) type := ⟨_, rfl⟩
  have hr' : pgMapVirtual (PgState.zeroFrame { s.take (mmAllocPage s.mm) with
      userMemory := s.userMemory + 0x1000 } f) cr3 a (f * 0x1000) type = (r, s') := hr.symm
  rw [hr'] at hfail hdone
  rw [← hr]
  cases r with
  | true => exact (hfail rfl).free_page rfl
  | false => exact hdone rfl

theorem Trees.mapLoop (hroot : cr3 / 0x1000 ∈ roots) (ha : userBase ≤ a) (type : Nat) :
    ∀ {n : Nat} {s : PgState} {vaddrEnd : Nat}, Trees s roots [] →
      a + n * 0x1000 ≤ addrTop → vaddrEnd = (a + n * 0x1000) % addrTop →
      Trees (pgMapLoop cr3 type n s vaddrEnd).2 roots [] := by
  intro n
  induction n with
  | zero => exact fun hT _ _ => hT
  | succ n ih =>
    intro s vaddrEnd hT htop hend
    obtain ⟨hle, hstep, hnext⟩ : a + n * 0x1000 ≤ addrTop ∧
        addrSub vaddrEnd 0x1000 = a + n * 0x1000 ∧
        a + n * 0x1000 = (a + n * 0x1000) % addrTop := by
      rw [addrSub, hend]
      unfold addrTop at htop ⊢
      omega
    have hpage := hT.mapPage hroot (show userBase ≤ a + n * 0x1000 by omega) type
    rw [pgMapLoop, hstep]
    split
    · rename_i s1 heq
      rw [heq] at hpage
      exact ih hpage hle hnext
    · rename_i s1 heq
      rw [heq] at hpage
      exact hpage

/-! ## Unmapping -/

theorem Trees.walk_write (hT : Trees s roots extra) (hroot : cr3 / 0x1000 ∈ roots)
    (ha : userBase ≤ a) (hlim : a < userLimit) (hin : ⟨1, p, t⟩ ∈ spaceNodes s.mem roots)
    (v : Nat) : ∀ k, k ≤ 3 → tableAt (s.write t i v).mem (cr3 / 0x1000) a k =
      tableAt s.mem (cr3 / 0x1000) a k := by
  intro k
  induction k with
  | zero => intro _; rfl
  | succ k ih =>
    intro hk
    rw [tableAt, tableAt, ih (by omega)]
    cases hu : tableAt s.mem (cr3 / 0x1000) a k with
    | none => rfl
    | some u =>
      -- a table above the last level
      have hne : ¬ (u = t ∧ pgIndex a k = i) := by
        rintro ⟨rfl, -⟩
        have hnode := hT.node_eq (hT.walk hroot ha hlim (by omega) hu) hin rfl
        simp only [Node.mk.injEq] at hnode
        omega
      simp only [write_mem, if_neg hne]

/-- Entries of the last level are as they were, or zero. -/
def Unmaps (s s' : PgState) (cr3 : Nat) : Prop :=
  ∀ b t i, userBase ≤ b → pgGetEntry s'.mem cr3 b = some (t, i) →
    pgGetEntry s.mem cr3 b = some (t, i) ∧ (s'.mem t i = s.mem t i ∨ s'.mem t i = 0)

theorem Unmaps.refl (s : PgState) (cr3 : Nat) : Unmaps s s cr3 :=
  fun _ _ _ _ hget => ⟨hget, .inl rfl⟩

theorem Unmaps.trans {s'' : PgState} (h1 : Unmaps s s' cr3) (h2 : Unmaps s' s'' cr3) :
    Unmaps s s'' cr3 := by
  intro b t i hb hget
  obtain ⟨hget', hval'⟩ := h2 b t i hb hget
  obtain ⟨hget'', hval⟩ := h1 b t i hb hget'
  refine ⟨hget'', ?_⟩
  rcases hval' with heq | h0
  · rwa [heq]
  · exact .inr h0

/-- There is no page for `a`. -/
def NoPage (mem : PageMem) (cr3 a : Nat) : Prop :=
  ∀ t i, pgGetEntry mem cr3 a = some (t, i) → userBit (mem t i) = false

theorem Unmaps.noPage (h : Unmaps s s' cr3) (ha : userBase ≤ a) (hn : NoPage s.mem cr3 a) :
    NoPage s'.mem cr3 a := by
  intro t i hget
  obtain ⟨hget', hval⟩ := h a t i ha hget
  rcases hval with heq | h0
  · rw [heq]
    exact hn t i hget'
  · rw [h0]
    rfl

/-- The page of `a` is not an executable-disabled one: bit 63 is clear. -/
def Executable (mem : PageMem) (cr3 a : Nat) : Prop :=
  ∀ t i, pgGetEntry mem cr3 a = some (t, i) → userBit (mem t i) = true →
    mem t i < 0x8000000000000000

theorem Unmaps.executable (h : Unmaps s s' cr3) (ha : userBase ≤ a)
    (he : Executable s.mem cr3 a) : Executable s'.mem cr3 a := by
  intro t i hget huser
  obtain ⟨hget', hval⟩ := h a t i ha hget
  rcases hval with heq | h0
  · rw [heq] at huser ⊢
    exact he t i hget' huser
  · omega

theorem Trees.unmapPage (hT : Trees s roots []) (hroot : cr3 / 0x1000 ∈ roots)
    (ha : userBase ≤ a) (hexec : Executable s.mem cr3 a) :
    Trees (pgUnmapPage s cr3 a) roots [] ∧ Unmaps s (pgUnmapPage s cr3 a) cr3 ∧
      NoPage (pgUnmapPage s cr3 a).mem cr3 a := by
  unfold pgUnmapPage
  split
  · rename_i hget
    refine ⟨hT, Unmaps.refl s cr3, fun t i hget' => ?_⟩
    rw [hget] at hget'
    cases hget'
  rename_i t i hget
  obtain ⟨hle, htab, hidx⟩ := pgGetEntry_eq_some.mp hget
  have hlim := limit_of_shift hle
  have hin := hT.walk hroot ha hlim (le_refl 3) htab
  have hi := pgIndex_mem ha hlim (le_refl 3)
  rw [← hidx] at hi
  simp only
  split
  · rename_i huser
    refine ⟨hT, Unmaps.refl s cr3, fun t' i' hget' => ?_⟩
    rw [hget] at hget'
    cases hget'
    simpa using huser
  rename_i huser
  rw [Bool.not_eq_true, Bool.not_eq_false'] at huser
  have hne : s.mem t i ≠ 0 := by
    intro h0
    rw [h0] at huser
    simp [userBit] at huser
  have hsmall := hexec t i hget huser
  have hok := hT.entries 0 _ t hin i hi
  have haddr : s.mem t i / 0x1000 * 0x1000 = frameOf (s.mem t i) * 0x1000 := by
    rcases hok with h0 | ⟨-, -, hlow⟩
    · omega
    · rw [frameOf]
      omega
  have hT' := hT.writeLeaf hin hi (EntryOk.zero 0) (slot pgShape s.mem 0 (pgKey a 3) t i)
    (by simp)
  rw [slot_leaf, if_neg hne] at hT'
  have hT'' := hT'.free_page rfl
  rw [haddr]
  refine ⟨hT'', fun b u j hb hgetb => ?_, fun u j hget' => ?_⟩
  · obtain ⟨hleb, htabb, hidxb⟩ := pgGetEntry_eq_some.mp hgetb
    have hwalk := hT.walk_write hroot hb (limit_of_shift hleb) hin 0 3 (le_refl 3)
      (i := i)
    refine ⟨pgGetEntry_eq_some.mpr ⟨hleb, hwalk ▸ htabb, hidxb⟩, ?_⟩
    have hval := write_mem s t i 0 u j
    split at hval
    · exact .inr hval
    · exact .inl hval
  · obtain ⟨-, htab', hidx'⟩ := pgGetEntry_eq_some.mp hget'
    have hwalk := hT.walk_write hroot ha hlim hin 0 3 (le_refl 3) (i := i)
    have hsame := hwalk.symm.trans htab'
    rw [htab, some.injEq] at hsame
    have hval := write_mem s t i 0 u j
    rw [if_pos ⟨hsame.symm, hidx'.trans hidx.symm⟩] at hval
    show userBit ((s.write t i 0).mem u j) = false
    rw [hval]
    rfl

theorem Trees.unmapLoop (hroot : cr3 / 0x1000 ∈ roots) :
    ∀ {n : Nat} {s : PgState} {a : Nat}, Trees s roots [] → userBase ≤ a →
      a + n * 0x1000 ≤ addrTop →
      (∀ j, j < n → Executable s.mem cr3 (a + j * 0x1000)) →
      Trees (pgUnmapLoop cr3 n s a) roots [] ∧ Unmaps s (pgUnmapLoop cr3 n s a) cr3 ∧
        ∀ j, j < n → NoPage (pgUnmapLoop cr3 n s a).mem cr3 (a + j * 0x1000) := by
  intro n
  induction n with
  | zero => exact fun hT _ _ _ => ⟨hT, Unmaps.refl _ _, fun j hj => by omega⟩
  | succ n ih =>
    intro s a hT ha htop hexec
    obtain ⟨hT1, hu1, hn1⟩ := hT.unmapPage hroot ha (by simpa using hexec 0 (by omega))
    rw [pgUnmapLoop]
    rcases Nat.eq_zero_or_pos n with rfl | hpos
    · refine ⟨hT1, hu1, fun j hj => ?_⟩
      obtain rfl : j = 0 := by omega
      exact hn1
    have hstep : (a + 0x1000) % addrTop = a + 0x1000 := by
      unfold addrTop at *
      omega
    have hshift : ∀ j, a + 0x1000 + j * 0x1000 = a + (j + 1) * 0x1000 := by
      omega
    rw [hstep]
    obtain ⟨hT2, hu2, hn2⟩ := @ih (pgUnmapPage s cr3 a) (a + 0x1000) hT1 (by omega)
      (by omega) (fun j hj => by
        rw [hshift]
        exact hu1.executable (by omega) (hexec (j + 1) (by omega)))
    refine ⟨hT2, hu1.trans hu2, fun j hj => ?_⟩
    cases j with
    | zero => simpa using hu2.noPage ha hn1
    | succ j =>
      rw [← hshift]
      exact hn2 j (by omega)

theorem or_low (e : Nat) {b : Nat} (hb : b < 0x1000) : (e ||| b) / 0x1000 = e / 0x1000 := by
  have hdiv : (e ||| b) / 2 ^ 12 = e / 2 ^ 12 ||| b / 2 ^ 12 := Nat.or_div_two_pow
  rw [show (0x1000 : Nat) = 2 ^ 12 from rfl] at hb ⊢
  rw [hdiv, Nat.div_eq_of_lt hb, Nat.or_zero]

theorem xor_low (e : Nat) {b : Nat} (hb : b < 0x1000) : (e ^^^ b) / 0x1000 = e / 0x1000 := by
  have hdiv : (e ^^^ b) / 2 ^ 12 = e / 2 ^ 12 ^^^ b / 2 ^ 12 := Nat.xor_div_two_pow
  rw [show (0x1000 : Nat) = 2 ^ 12 from rfl] at hb ⊢
  rw [hdiv, Nat.div_eq_of_lt hb, Nat.xor_zero]

theorem protectEntry_ok {e : Nat} (hok : EntryOk 0 e) (huser : userBit e = true)
    (nxbit : Bool) (type : Nat) :
    EntryOk 0 (protectEntry nxbit type e) ∧ protectEntry nxbit type e ≠ 0 ∧
      frameOf (protectEntry nxbit type e) = frameOf e := by
  -- the value before bit 63 is cleared
  obtain ⟨v, hv⟩ : ∃ v, v = (if type &&& pgReadonly ≠ 0 then
      (if type &&& pgBlocked ≠ 0 then (e ||| 0x003) ^^^ 0x001 else e ||| 0x003) ^^^ 0x002
    else if type &&& pgBlocked ≠ 0 then (e ||| 0x003) ^^^ 0x001 else e ||| 0x003) := ⟨_, rfl⟩
  have hdiv : v / 0x1000 = e / 0x1000 := by
    have hor := or_low e (show 3 < 0x1000 by omega)
    rw [hv]
    split_ifs
    · rw [xor_low _ (by omega), xor_low _ (by omega), hor]
    · rw [xor_low _ (by omega), hor]
    · rw [xor_low _ (by omega), hor]
    · exact hor
  have hbit : v.testBit 2 = true := by
    rw [userBit] at huser
    rw [hv]
    split_ifs <;> simp only [Nat.testBit_xor, Nat.testBit_or, huser] <;> decide
  have hclear : v &&& 0x7FFFFFFFFFFFFFFF = v % 0x8000000000000000 :=
    Nat.and_two_pow_sub_one_eq_mod v 63
  have hdef : protectEntry nxbit type e = v % 0x8000000000000000 ∨
      protectEntry nxbit type e = v % 0x8000000000000000 + 0x8000000000000000 := by
    rw [← or_top (by omega), ← hclear, hv]
    unfold protectEntry
    split_ifs <;> simp
  have huser' : userBit (protectEntry nxbit type e) = true := by
    have hmod : (v % 0x8000000000000000).testBit 2 = true := by
      have h := Nat.testBit_mod_two_pow v 63 2
      rw [hbit] at h
      exact h
    rcases hdef with hd | hd
    · rw [hd, userBit, hmod]
    · rw [hd, userBit, ← or_top (by omega), Nat.testBit_or, hmod, Bool.true_or]
  rcases hok with h0 | ⟨-, -, hlow⟩
  · rw [h0] at huser
    simp [userBit] at huser
  refine ⟨.inr ⟨huser', ?_, ?_⟩, ?_, ?_⟩
  · omega
  · omega
  · intro h0
    rw [h0] at huser'
    simp [userBit] at huser'
  · rw [frameOf, frameOf]
    omega

theorem Trees.protectPage (hT : Trees s roots []) (hroot : cr3 / 0x1000 ∈ roots)
    (ha : userBase ≤ a) (type : Nat) : Trees (pgProtectPage s cr3 type a) roots [] := by
  unfold pgProtectPage
  split
  · exact hT
  rename_i t i hget
  obtain ⟨hle, htab, hidx⟩ := pgGetEntry_eq_some.mp hget
  have hlim := limit_of_shift hle
  have hin := hT.walk hroot ha hlim (le_refl 3) htab
  have hi := pgIndex_mem ha hlim (le_refl 3)
  rw [← hidx] at hi
  simp only
  split
  · rename_i huser
    have hok := hT.entries 0 _ t hin i hi
    obtain ⟨hok', hne', hframe⟩ := protectEntry_ok hok huser s.nxbit type
    have hne : s.mem t i ≠ 0 := by
      intro h0
      rw [h0] at huser
      simp [userBit] at huser
    refine hT.writeLeaf hin hi hok' [] ?_
    rw [slot_leaf, if_neg hne, if_neg hne', hframe]
  · exact hT

theorem Trees.protectLoop (hroot : cr3 / 0x1000 ∈ roots) (type : Nat) :
    ∀ {n : Nat} {s : PgState} {a : Nat}, Trees s roots [] → userBase ≤ a →
      a + n * 0x1000 ≤ addrTop → Trees (pgProtectLoop cr3 type n s a) roots [] := by
  intro n
  induction n with
  | zero => exact fun hT _ _ => hT
  | succ n ih =>
    intro s a hT ha htop
    have hT1 := hT.protectPage hroot ha type
    rw [pgProtectLoop]
    rcases Nat.eq_zero_or_pos n with rfl | hpos
    · exact hT1
    · have hstep : (a + 0x1000) % addrTop = a + 0x1000 := by
        unfold addrTop at *
        omega
      exact ih hT1 (by omega) (by omega)

/-! ## Deleting an address space -/

/-- The slots `pg_delete_cr3` visits. -/
def deleteSlots : Nat → Nat → List Nat
  | 3, _ => range 256
  | 1, p => pdeIndices (p % 512)
  | _, _ => range 512

def deleteShape : Shape Nat Nat where
  width := 512
  slots := deleteSlots
  kid := pgKid
  slots_nodup := fun h p => by
    unfold deleteSlots
    split
    · exact nodup_range
    · unfold pdeIndices
      split
      · exact nodup_range
      · exact nodup_range'
    · exact nodup_range

theorem deleteShape_slots : deleteShape.slots = deleteSlots := rfl

theorem deleteSlots_zero (p : Nat) : deleteShape.slots 0 p = range 512 := by
  rw [deleteShape_slots]
  exact rfl

theorem deleteSlots_one (p : Nat) : deleteShape.slots 1 p = pdeIndices (p % 512) := by
  exact rfl

theorem deleteSlots_two (p : Nat) : deleteShape.slots 2 p = range 512 := by
  rw [deleteShape_slots]
  exact rfl

theorem deleteSlots_three (p : Nat) : deleteShape.slots 3 p = range 256 := by
  rw [deleteShape_slots]
  exact rfl

/-- Frames are given back, newest first in the log. -/
def PgState.giveBack (s : PgState) : List (Node Nat) → PgState
  | [] => s
  | x :: l =>
    let s := s.freePage (x.frame * 0x1000)
    { s with userMemory := s.userMemory - if x.height = 0 then 0x1000 else 0 }.giveBack l

/-- `s'` is `s` with some nodes given back, where only the entries in `X`
have changed. -/
structure Deleted (s s' : PgState) (X : Nat → Nat → Prop) (l : List (Node Nat)) : Prop where
  given : s' = { s.giveBack l with mem := s'.mem }
  others : ∀ f j, ¬ X f j → s'.mem f j = s.mem f j

variable {s s' s'' : PgState} {l l' : List (Node Nat)} {X Y : Nat → Nat → Prop}
  {h p t i c : Nat}

theorem giveBack_append (s : PgState) (l l' : List (Node Nat)) :
    s.giveBack (l ++ l') = (s.giveBack l).giveBack l' := by
  induction l generalizing s with
  | nil => rfl
  | cons x l ih => exact ih _

theorem giveBack_mem (s : PgState) (l : List (Node Nat)) : (s.giveBack l).mem = s.mem := by
  induction l generalizing s with
  | nil => rfl
  | cons x l ih => exact ih _

theorem giveBack_setMem (s : PgState) (m : PageMem) (l : List (Node Nat)) :
    { s with mem := m }.giveBack l = { s.giveBack l with mem := m } := by
  induction l generalizing s with
  | nil => rfl
  | cons x l ih =>
    rw [PgState.giveBack, PgState.giveBack, ← ih]
    rfl

theorem Deleted.refl (s : PgState) (X : Nat → Nat → Prop) : Deleted s s X [] :=
  ⟨rfl, fun _ _ _ => rfl⟩

theorem Deleted.trans (h1 : Deleted s s' X l) (h2 : Deleted s' s'' Y l') :
    Deleted s s'' (fun f j => X f j ∨ Y f j) (l ++ l') where
  given := by
    have hg := h2.given
    rw [h1.given, giveBack_setMem] at hg
    rwa [giveBack_append]
  others := fun f j hno => by
    rw [not_or] at hno
    exact (h2.others f j hno.2).trans (h1.others f j hno.1)

theorem Deleted.mono (h1 : Deleted s s' X l) (hsub : ∀ f j, X f j → Y f j) :
    Deleted s s' Y l :=
  ⟨h1.given, fun f j hno => h1.others f j fun hx => hno (hsub f j hx)⟩

theorem deleted_foldl {body : PgState → Nat → PgState} {X : Nat → Nat → Nat → Prop}
    {C : Nat → List (Node Nat)} {slots : List Nat} (hnd : slots.Nodup)
    (hdisj : ∀ i ∈ slots, ∀ j ∈ slots, i ≠ j → ∀ f k, X i f k → ¬ X j f k) :
    ∀ {s : PgState}, (∀ i ∈ slots, ∀ s1 : PgState,
        (∀ f j, X i f j → s1.mem f j = s.mem f j) → Deleted s1 (body s1 i) (X i) (C i)) →
      Deleted s (slots.foldl body s) (fun f k => ∃ i ∈ slots, X i f k) (slots.flatMap C) := by
  induction slots with
  | nil => exact fun _ => Deleted.refl _ _
  | cons i slots ih =>
    intro s hbody
    have hi : i ∈ i :: slots := mem_cons_self
    obtain ⟨hnot, hnd'⟩ := nodup_cons.mp hnd
    have h1 := hbody i hi s fun _ _ _ => rfl
    have h2 : Deleted (body s i) (slots.foldl body (body s i))
        (fun f k => ∃ i ∈ slots, X i f k) (slots.flatMap C) := by
      refine ih hnd' (fun a ha b hb => hdisj a (.tail _ ha) b
        (.tail _ hb)) fun a ha s1 hagree => ?_
      refine hbody a (.tail _ ha) s1 fun f j hx => ?_
      rw [hagree f j hx]
      refine h1.others f j fun hx' => ?_
      exact hdisj i hi a (.tail _ ha) (fun heq => hnot (heq ▸ ha)) f j hx' hx
    refine (h1.trans h2).mono fun f k hx => ?_
    rcases hx with hx | ⟨a, ha, hx⟩
    · exact ⟨i, hi, hx⟩
    · exact ⟨a, mem_cons_of_mem _ ha, hx⟩

def SlotTouches (S : Shape Nat Nat) (mem : PageMem) (h p t i : Nat) (f j : Nat) : Prop :=
  (f = t ∧ j = i) ∨ Tables (slot S mem h p t i) f

/-- The entry `i` of a table is cleared, and what was behind it given back. -/
def Cleared (h p t i : Nat) (s s' : PgState) : Prop :=
  (frames (slot deleteShape s.mem h p t i)).Nodup →
    Deleted s s' (SlotTouches deleteShape s.mem h p t i) (slot deleteShape s.mem h p t i)

/-- All that is below a table is given back, its entries being cleared. -/
def Emptied (h p t : Nat) (s s' : PgState) : Prop :=
  (frames (nodes deleteShape s.mem h p t ++ [⟨h, p, t⟩])).Nodup →
    Deleted s s' (fun f _ => Tables (nodes deleteShape s.mem h p t ++ [⟨h, p, t⟩]) f)
      (nodes deleteShape s.mem h p t)

theorem deleted_table {body : PgState → Nat → PgState} {slots : List Nat}
    (hslots : deleteShape.slots h p = slots)
    (hbody : ∀ i ∈ slots, ∀ s1, Cleared h p t i s1 (body s1 i)) :
    Emptied (h + 1) p t s (slots.foldl body s) := by
  intro hnd
  subst hslots
  rw [frames_append, nodup_append] at hnd
  obtain ⟨hbelow, -, hroot⟩ := hnd
  have hout : ∀ i ∈ deleteShape.slots h p, ∀ f, Tables (slot deleteShape s.mem h p t i) f → f ≠ t := by
    rintro i hi f ⟨x, hx, -, rfl⟩ heq
    refine hroot x.frame (mem_frames_of_mem (mem_nodes_succ.mpr ⟨i, hi, hx⟩)) t ?_ heq
    simp [frames]
  have hdisj : ∀ i ∈ deleteShape.slots h p, ∀ j ∈ deleteShape.slots h p, i ≠ j → ∀ f k,
      SlotTouches deleteShape s.mem h p t i f k → ¬ SlotTouches deleteShape s.mem h p t j f k := by
    rintro i hi j hj hne f k (⟨rfl, rfl⟩ | h1) (⟨h2, h3⟩ | h2)
    · exact hne h3
    · exact hout j hj _ h2 rfl
    · exact hout i hi _ h1 h2
    · exact frames_disjoint hbelow hi hj hne h1.mem_frames h2.mem_frames
  have hloop := @deleted_foldl body (SlotTouches deleteShape s.mem h p t) (slot deleteShape s.mem h p t) _
    (deleteShape.slots_nodup h p) hdisj s fun i hi s1 hagree => by
      have hslot : slot deleteShape s1.mem h p t i = slot deleteShape s.mem h p t i :=
        slot_congr (hagree t i (.inl ⟨rfl, rfl⟩)) fun f hf j => hagree f j (.inr hf)
      have hone := hbody i hi s1 (by
        rw [hslot]
        exact frames_nodup_of_mem hbelow hi)
      unfold SlotTouches at hone ⊢
      rw [hslot] at hone
      exact hone
  refine hloop.mono ?_
  rintro f k ⟨i, hi, ⟨rfl, -⟩ | ⟨x, hx, hh, rfl⟩⟩
  · exact ⟨⟨h + 1, p, f⟩, by simp, Nat.succ_ne_zero h, rfl⟩
  · exact ⟨x, mem_append_left _ (mem_nodes_succ.mpr ⟨i, hi, hx⟩), hh, rfl⟩

/-! ## The loops -/

theorem pgFreePte_false (s : PgState) (pte : Nat) :
    pgFreePte s pte false =
      (0, (range 512).foldl (fun s i => (pgFreePteEntry pte false (0, s) i).2) s) := by
  have hone : ∀ (s : PgState) i, pgFreePteEntry pte false (0, s) i =
      (0, (pgFreePteEntry pte false (0, s) i).2) := by
    intro s i
    unfold pgFreePteEntry
    simp only
    split <;> rfl
  have hall : ∀ (l : List Nat) (s : PgState), l.foldl (pgFreePteEntry pte false) (0, s) =
      (0, l.foldl (fun s i => (pgFreePteEntry pte false (0, s) i).2) s) := by
    intro l
    induction l with
    | nil => exact fun _ => rfl
    | cons i l ih =>
      intro s
      rw [foldl_cons, foldl_cons, hone]
      exact ih _
  exact hall _ s

theorem deleted_pageEntry (s : PgState) (p t i : Nat) :
    Cleared 0 p t i s (pgFreePteEntry t false (0, s) i).2 := by
  intro _
  unfold pgFreePteEntry
  simp only
  split
  · rename_i h0
    have hslot : slot deleteShape s.mem 0 p t i = [] := slot_none (by rw [h0]; exact pgKid_zero 0)
    rw [hslot]
    exact Deleted.refl _ _
  rename_i h0
  have hslot : slot deleteShape s.mem 0 p t i = [⟨0, p * 512 + i, frameOf (s.mem t i)⟩] :=
    slot_some (by simp only [deleteShape, pgKid, if_neg h0])
  rw [hslot]
  refine ⟨rfl, fun f j hno => ?_⟩
  rw [SlotTouches, not_or] at hno
  exact (write_mem s t i 0 f j).trans (if_neg hno.1)

theorem deleted_pte {t : Nat} : Emptied 1 p t s (pgFreePte s t false).2 := by
  rw [pgFreePte_false]
  dsimp only
  exact deleted_table (deleteSlots_zero p) fun i _ s1 => deleted_pageEntry s1 p t i

/-- The end of the round of a slot: the slot is cleared, and the table that
was behind it is given back. -/
theorem deleted_tableEntry (hh : h ≠ 0) (hkid : pgKid h (s.mem t i) = some c)
    (hdel : Emptied h (p * 512 + i) c s s') :
    Cleared h p t i s ((s'.write t i 0).freePage (c * 0x1000)) := by
  intro hnd
  have hslot : slot deleteShape s.mem h p t i = _ := slot_some hkid
  unfold SlotTouches
  rw [hslot] at hnd ⊢
  have hlast : Deleted s' ((s'.write t i 0).freePage (c * 0x1000)) (fun f j => f = t ∧ j = i)
      [⟨h, p * 512 + i, c⟩] := by
    refine ⟨?_, fun f j hno => (write_mem s' t i 0 f j).trans (if_neg hno)⟩
    rw [PgState.giveBack, PgState.giveBack, if_neg hh, Int.sub_zero]
    rfl
  exact ((hdel hnd).trans hlast).mono fun f j hx => hx.symm

theorem deleted_noEntry (hkid : pgKid h (s.mem t i) = none) : Cleared h p t i s s := by
  intro _
  have hslot : slot deleteShape s.mem h p t i = [] := slot_none hkid
  rw [hslot]
  exact Deleted.refl _ _

theorem deleted_pde {t : Nat} :
    Emptied 2 p t s ((pdeIndices (p % 512)).foldl (pgDeletePdeEntry t false) s) := by
  refine deleted_table (deleteSlots_one p) fun i _ s1 => ?_
  unfold pgDeletePdeEntry
  simp only
  split
  · exact deleted_noEntry (by simp only [pgKid]; simp_all)
  split
  · exact deleted_noEntry (by simp only [pgKid]; simp_all)
  have hkid : pgKid 1 (s1.mem t i) = some (frameOf (s1.mem t i)) := by
    simp only [pgKid]
    simp_all
  have hr : (pgFreePte s1 (frameOf (s1.mem t i)) false).1 = 0 := by
    rw [pgFreePte_false]
  rw [if_neg (by rw [hr]; simp)]
  exact deleted_tableEntry (by omega) hkid deleted_pte

theorem deleted_pdpe {t : Nat} :
    Emptied 3 p t s ((range 512).foldl (pgDeletePdpeEntry t false) s) := by
  refine deleted_table (deleteSlots_two p) fun i hi s1 => ?_
  have hlt : i < 512 := mem_range.mp hi
  unfold pgDeletePdpeEntry
  simp only
  split
  · exact deleted_noEntry (by simp only [pgKid]; simp_all)
  split
  · exact deleted_noEntry (by simp only [pgKid]; simp_all)
  have hkid : pgKid 2 (s1.mem t i) = some (frameOf (s1.mem t i)) := by
    simp only [pgKid]
    simp_all
  refine deleted_tableEntry (by omega) hkid ?_
  have hdel := @deleted_pde s1 (p * 512 + i) (frameOf (s1.mem t i))
  rwa [show (p * 512 + i) % 512 = i by omega] at hdel

theorem deleted_pml4 {t : Nat} :
    Emptied 4 p t s ((range 256).foldl (pgDeletePml4Entry t false) s) := by
  refine deleted_table (deleteSlots_three p) fun i _ s1 => ?_
  unfold pgDeletePml4Entry
  simp only
  split
  · exact deleted_noEntry (by simp only [pgKid]; simp_all)
  · have hkid : pgKid 3 (s1.mem t i) = some (frameOf (s1.mem t i)) := by
      simp only [pgKid]
      simp_all
    exact deleted_tableEntry (by omega) hkid deleted_pdpe

/-- **Deleting a space** gives the frames it visits back, its root last. -/
theorem deleted_cr3 {cr3 : Nat}
    (hnd : (frames (nodes deleteShape s.mem 4 0 (cr3 / 0x1000) ++
      [⟨4, 0, cr3 / 0x1000⟩])).Nodup) :
    Deleted s (pgDeleteCr3 s cr3 false)
      (fun f _ => Tables (nodes deleteShape s.mem 4 0 (cr3 / 0x1000) ++ [⟨4, 0, cr3 / 0x1000⟩]) f)
      (nodes deleteShape s.mem 4 0 (cr3 / 0x1000) ++ [⟨4, 0, cr3 / 0x1000⟩]) := by
  have hdel := deleted_pml4 hnd
  obtain ⟨s1, hs1⟩ : ∃ s1, s1 = (range 256).foldl
      (pgDeletePml4Entry (cr3 / 0x1000) false) s := ⟨_, rfl⟩
  rw [← hs1] at hdel
  have hlast : Deleted s1 ((s1.zeroFrame (cr3 / 0x1000)).freePage (cr3 / 0x1000 * 0x1000))
      (fun f _ => f = cr3 / 0x1000) [⟨4, 0, cr3 / 0x1000⟩] := by
    refine ⟨?_, fun f j hno => ?_⟩
    · rw [PgState.giveBack, PgState.giveBack, if_neg (by simp), Int.sub_zero]
      rfl
    · show Function.update s1.mem _ _ f j = s1.mem f j
      rw [Function.update_of_ne hno]
  have hdef : pgDeleteCr3 s cr3 false =
      (s1.zeroFrame (cr3 / 0x1000)).freePage (cr3 / 0x1000 * 0x1000) := by
    rw [hs1]
    rfl
  rw [hdef]
  refine (hdel.trans hlast).mono fun f j hx => ?_
  rcases hx with hx | rfl
  · exact hx
  · exact ⟨⟨4, 0, cr3 / 0x1000⟩, by simp, by simp, rfl⟩

/-! ## The entries that are left out -/

/-- There are no page tables behind the entries `pg_delete_cr3` leaves out:
those of the addresses `i * 2 ^ 39 .. i * 2 ^ 39 + 2 ^ 28`, `i > 0`. -/
def SkippedEmpty (mem : PageMem) (root : Nat) : Prop :=
  ∀ i k, 0 < i → i < 256 → k < 128 → present (mem root i) = true →
    present (mem (frameOf (mem root i)) 0) = true →
    present (mem (frameOf (mem (frameOf (mem root i)) 0)) k) = false

section Skipped

variable {mem : PageMem}

theorem nodes_delete_succ (hslots : deleteSlots h p = pgSlots h p)
    (hkids : ∀ i ∈ pgSlots h p, ∀ c, pgKid h (mem t i) = some c →
      nodes deleteShape mem h (p * 512 + i) c = nodes pgShape mem h (p * 512 + i) c) :
    nodes deleteShape mem (h + 1) p t = nodes pgShape mem (h + 1) p t := by
  rw [nodes_succ, nodes_succ]
  have hsame : deleteShape.slots h p = pgShape.slots h p := hslots
  rw [hsame]
  refine flatMap_congr fun i hi => ?_
  cases hk : pgKid h (mem t i) with
  | none =>
    have h1 : slot deleteShape mem h p t i = [] := slot_none hk
    have h2 : slot pgShape mem h p t i = [] := slot_none hk
    rw [h1, h2]
  | some c =>
    have h1 : slot deleteShape mem h p t i = _ := slot_some hk
    have h2 : slot pgShape mem h p t i = _ := slot_some hk
    have hbelow := hkids i hi c hk
    rw [h1, h2]
    exact congrArg (fun l => l ++ [⟨h, p * 512 + i, c⟩]) hbelow

theorem nodes_delete_one (p t : Nat) :
    nodes deleteShape mem 1 p t = nodes pgShape mem 1 p t :=
  nodes_delete_succ rfl fun _ _ _ _ => rfl

theorem range_split : range 512 = range 128 ++ range' 128 384 := by
  rw [range_eq_range', range_eq_range']
  rfl

theorem nodes_delete_two (hskip : p ≠ 0 → p % 512 = 0 → ∀ k, k < 128 →
    pgKid 1 (mem t k) = none) : nodes deleteShape mem 2 p t = nodes pgShape mem 2 p t := by
  by_cases hcase : p ≠ 0 ∧ p % 512 = 0
  · have hempty : (range 128).flatMap (slot pgShape mem 1 p t) = [] :=
      flatMap_eq_nil_iff.mpr fun k hk =>
        slot_none (hskip hcase.1 hcase.2 k (mem_range.mp hk))
    have hdelete : deleteShape.slots 1 p = range' 128 384 := by
      rw [deleteSlots_one, pdeIndices, hcase.2, if_neg (by omega)]
    have hslots : pgShape.slots 1 p = range 128 ++ range' 128 384 := by
      rw [← range_split]
      exact if_neg hcase.1
    rw [nodes_succ, nodes_succ, hdelete, hslots, flatMap_append, hempty, nil_append]
    refine flatMap_congr fun i _ => ?_
    cases hk : pgKid 1 (mem t i) with
    | none =>
      have h1 : slot deleteShape mem 1 p t i = [] := slot_none hk
      have h2 : slot pgShape mem 1 p t i = [] := slot_none hk
      rw [h1, h2]
    | some c =>
      rfl
  · refine nodes_delete_succ ?_ fun i _ c _ => nodes_delete_one _ c
    have h1 : deleteSlots 1 p = pdeIndices (p % 512) := rfl
    have h2 : pgSlots 1 p = if p = 0 then range' 128 384 else range 512 := rfl
    rw [h1, h2, pdeIndices]
    by_cases hp : p = 0
    · simp [hp]
    · rw [if_neg hp, if_pos (by omega)]

/-- Without page tables in the part it leaves out, `pg_delete_cr3` visits
the whole tree. -/
theorem nodes_delete_root {root : Nat} (hskip : SkippedEmpty mem root) :
    nodes deleteShape mem 4 0 root = nodes pgShape mem 4 0 root := by
  refine nodes_delete_succ rfl fun i hi c hc => ?_
  have hi : i < 256 := mem_range.mp hi
  refine nodes_delete_succ rfl fun j hj d hd => nodes_delete_two fun hp hmod k hk => ?_
  have hj : j < 512 := mem_range.mp hj
  obtain rfl : j = 0 := by omega
  -- the entries on the way are present
  have hpres : ∀ {h e c : Nat}, pgKid (h + 1) e = some c → present e = true ∧ c = frameOf e := by
    intro h e c hkid
    unfold pgKid at hkid
    split at hkid
    · omega
    · split at hkid
      · rename_i hp
        exact ⟨hp, (some.inj hkid).symm⟩
      · cases hkid
    · split at hkid
      · rename_i hp
        rw [Bool.and_eq_true] at hp
        exact ⟨hp.1, (some.inj hkid).symm⟩
      · cases hkid
  obtain ⟨hp1, rfl⟩ := hpres hc
  obtain ⟨hp2, rfl⟩ := hpres hd
  have hno := hskip i k (by omega) hi hk hp1 hp2
  simp only [pgKid, hno, Bool.false_and, Bool.false_eq_true, if_false]

end Skipped

variable {roots roots' : List Nat}

theorem Trees.permRoots (hT : Trees s roots extra) (hp : roots.Perm roots') :
    Trees s roots' extra := by
  have hforest : (spaceNodes s.mem roots).Perm (spaceNodes s.mem roots') := hp.flatMap_right _
  have hall := hforest.append_left extra
  exact ⟨hT.held.perm hall, hT.memory.trans (by rw [pageCount_perm hall]),
    fun h p t hin => hT.entries h p t (hforest.mem_iff.mpr hin)⟩

theorem Trees.giveBack : ∀ {l : List (Node Nat)} {s : PgState}, Trees s roots (l ++ extra) →
    Trees (s.giveBack l) roots extra := by
  intro l
  induction l with
  | nil => exact fun hT => hT
  | cons x l ih =>
    intro s hT
    refine ih ?_
    by_cases hx : x.height = 0
    · rw [if_pos hx]
      exact hT.free_page hx
    rw [if_neg hx]
    refine (Trees.congr (hT.free_table hx) ?_ ?_ ?_ ?_ ?_).1
    · simp
    · rfl
    · rfl
    · rfl
    · exact Int.sub_zero _

theorem Trees.unlink {r : Nat} {rest : List Nat} (hT : Trees s (r :: rest) []) :
    Trees s rest ((nodes pgShape s.mem 4 0 r ++ [⟨4, 0, r⟩]) ++ []) := by
  have hsplit : spaceNodes s.mem (r :: rest) =
      (nodes pgShape s.mem 4 0 r ++ [⟨4, 0, r⟩]) ++ spaceNodes s.mem rest := rfl
  refine ⟨hT.held.perm ?_, ?_, fun h p t hin => hT.entries h p t ?_⟩
  · simp [hsplit]
  · rw [hT.memory, hsplit, nil_append, append_nil]
  · exact mem_append_right _ hin

theorem Trees.delete (cr3 : Nat) (rest : List Nat) (hT : Trees s roots [])
    (hroots : roots.Perm (cr3 / 0x1000 :: rest)) (hskip : SkippedEmpty s.mem (cr3 / 0x1000)) :
    Trees (pgDeleteCr3 s cr3 false) rest [] ∧
      ∀ g ∈ frames (spaceNodes s.mem rest), (pgDeleteCr3 s cr3 false).mem g = s.mem g := by
  have hT1 := hT.permRoots hroots
  obtain ⟨l, hl⟩ : ∃ l, l = nodes pgShape s.mem 4 0 (cr3 / 0x1000) ++ [⟨4, 0, cr3 / 0x1000⟩] :=
    ⟨_, rfl⟩
  have hT2 := hT1.unlink
  rw [← hl] at hT2
  have hnd : (frames l).Nodup := by
    have h := hT2.held.nodup
    rw [frames_append, append_nil] at h
    exact (nodup_append.mp h).1
  have hdel := @deleted_cr3 s cr3 (by rw [nodes_delete_root hskip, ← hl]; exact hnd)
  rw [nodes_delete_root hskip, ← hl] at hdel
  have hT3 := hT2.giveBack
  have hmem := giveBack_mem s l
  have hsame : ∀ g ∈ frames (spaceNodes s.mem rest),
      (pgDeleteCr3 s cr3 false).mem g = s.mem g := by
    intro g hg
    funext j
    refine hdel.others g j fun hx => ?_
    refine hT2.extra_ne ?_ hg rfl
    rw [append_nil]
    exact hx.mem_frames
  refine ⟨(hT3.congr (fun g hg => ?_) ?_ ?_ ?_ ?_).1, hsame⟩
  · rw [hmem] at hg ⊢
    exact hsame g hg
  all_goals rw [hdel.given]

theorem SkippedEmpty.congr {root : Nat} (hT : Trees s roots extra) (hr : root ∈ roots)
    (hsame : ∀ g ∈ frames (spaceNodes s.mem roots), s'.mem g = s.mem g)
    (hskip : SkippedEmpty s.mem root) : SkippedEmpty s'.mem root := by
  intro i k hi hi' hk hp1 hp2
  have hroot : ⟨4, 0, root⟩ ∈ spaceNodes s.mem roots :=
    mem_flatMap.mpr ⟨root, hr, by simp [branch]⟩
  have hslot : i ∈ pgSlots 3 0 := mem_range.mpr hi'
  rw [hsame root (mem_frames_of_mem hroot)] at hp1 hp2 ⊢
  obtain ⟨hkid, -, htab⟩ := (hT.entries 3 0 root hroot i hslot).child hp1
  have hpdpt := hT.child hroot hslot hkid
  rw [htab] at hpdpt
  have hslot' : 0 ∈ pgSlots 2 (0 * 512 + i) := mem_range.mpr (by omega)
  rw [hsame _ (mem_frames_of_mem hpdpt)] at hp2 ⊢
  obtain ⟨hkid', -, htab'⟩ := (hT.entries 2 _ _ hpdpt 0 hslot').child hp2
  have hpd := hT.child hpdpt hslot' hkid'
  rw [htab'] at hpd
  rw [hsame _ (mem_frames_of_mem hpd)]
  exact hskip i k hi hi' hk hp1 hp2

end Dancy.Pg
