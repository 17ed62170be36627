import Dancy.Pg.Kernel

/-!
# `pg_map_kernel` over whole runs

A page that was mapped stays mapped, where it was and uncached if it was. So
what the rounds of the loop have mapped is there at the end, from every state
that the kernel can be in.
-/

namespace Dancy.Pg

open Dancy.Mm Dancy.Lib Option
open Dancy.Lib.Descent (Agree Separate)

variable {K : PgSettings} {s s' s0 : KernelPages} {a addr k e t v type : Nat}

/-! ## Growing -/

/-- Leaves stay, and the large ones are as they were. New large ones are
uncached when this is wanted. -/
structure MapsMore (K : PgSettings) (type : Nat) (s s' : KernelPages) : Prop where
  keeps : ∀ v k e, pgWalk s.mem K.pgKernel v = some (k, e) →
    ∃ e', pgWalk s'.mem K.pgKernel v = some (k, e') ∧ (k ≠ 3 → e' = e) ∧
      (uncached e = true → uncached e' = true)
  fresh : isUncached type = true → ∀ v k e, pgWalk s'.mem K.pgKernel v = some (k, e) → k ≠ 3 →
    pgWalk s.mem K.pgKernel v = some (k, e) ∨ uncached e = true

theorem MapsMore.of_walk (h : ∀ v, pgWalk s'.mem K.pgKernel v = pgWalk s.mem K.pgKernel v) :
    MapsMore K type s s' :=
  ⟨fun v _ e hv => ⟨e, (h v).trans hv, fun _ => rfl, fun hu => hu⟩,
    fun _ v _ _ hv _ => .inl ((h v).symm.trans hv)⟩

theorem MapsMore.refl (K : PgSettings) (type : Nat) (s : KernelPages) : MapsMore K type s s :=
  .of_walk fun _ => rfl

theorem MapsMore.trans {s'' : KernelPages} (h : MapsMore K type s s') (h' : MapsMore K type s' s'') :
    MapsMore K type s s'' := by
  refine ⟨fun v k e hv => ?_, fun hu v k e hv hk => ?_⟩
  · obtain ⟨e1, hv1, hsame1, hcache1⟩ := h.keeps v k e hv
    obtain ⟨e2, hv2, hsame2, hcache2⟩ := h'.keeps v k e1 hv1
    exact ⟨e2, hv2, fun hk => (hsame2 hk).trans (hsame1 hk), fun hc => hcache2 (hcache1 hc)⟩
  · rcases h'.fresh hu v k e hv hk with hv | hc
    · exact h.fresh hu v k e hv hk
    · exact .inr hc

/-- A page is mapped, without caching when this is wanted, unless a large page
was there before. -/
def Mapped (K : PgSettings) (type : Nat) (s0 s : KernelPages) (a : Nat) : Prop :=
  a < physicalTop (isExtended type) ∧ ∃ k e, pgWalk s.mem K.pgKernel (virt (isExtended type) a) = some (k, e) ∧
    (isUncached type = true → uncached e = true ∨
      k ≠ 3 ∧ pgWalk s0.mem K.pgKernel (virt (isExtended type) a) = some (k, e))

theorem Mapped.before (hg : MapsMore K type s0 s) (h : Mapped K type s s' a) :
    Mapped K type s0 s' a := by
  obtain ⟨ha, k, e, hwalk, hcache⟩ := h
  refine ⟨ha, k, e, hwalk, fun hu => ?_⟩
  rcases hcache hu with hc | ⟨hk, hold⟩
  · exact .inl hc
  · exact (hg.fresh hu _ k e hold hk).symm.imp_right fun hv => ⟨hk, hv⟩

theorem Mapped.after (h : Mapped K type s0 s a) (hg : MapsMore K type s s') :
    Mapped K type s0 s' a := by
  obtain ⟨ha, k, e, hwalk, hcache⟩ := h
  obtain ⟨e', hwalk', hsame, hkeep⟩ := hg.keeps _ k e hwalk
  refine ⟨ha, k, e', hwalk', fun hu => ?_⟩
  rcases hcache hu with hc | ⟨hk, hold⟩
  · exact .inl (hkeep hc)
  · rw [hsame hk]
    exact .inr ⟨hk, hold⟩

section Leaf

variable (h : KernelInv K s) (haddr : addr < physicalTop (isExtended type)) {p : Nat → Nat}
  (hp : p = pgIndex (virt (isExtended type) addr))

include h haddr hp

theorem KernelInv.setLarge (hk : k = 1 ∨ k = 2)
    (hat : kernelTable s.mem (K.pgKernel / 0x1000) p k = some t) (globalPage : Bool)
    {r : Bool × KernelPages} (hr : r = pgSetLarge s t (p k)
      (addr / span k * span k ||| leafBits type globalPage true)) :
    KernelInv K r.2 ∧ MapsMore K type s r.2 ∧ (r.1 = false → ∀ a,
      a < physicalTop (isExtended type) → a / span k = addr / span k → Mapped K type s r.2 a) := by
  have hk3 : k ≤ 3 := by omega
  have hk0 : k ≠ 0 := by omega
  have hkn : k ≠ 3 := by omega
  obtain ⟨hpres, hlarge, hcache⟩ := leaf_bits (addr / span k * span k) type globalPage true
  obtain ⟨v, hv⟩ : ∃ v, v = addr / span k * span k ||| leafBits type globalPage true := ⟨_, rfl⟩
  rw [← hv] at hr hpres hlarge hcache
  have hleaf : maps k v = true := maps_large hk0 hpres (hlarge rfl)
  rw [pgSetLarge] at hr
  split at hr
  · rename_i hthere
    rw [hr]
    refine ⟨h, .refl K type s, fun hold a ha hpage => ?_⟩
    have hold : maps k (s.mem t (p k)) = true :=
      maps_large hk0 hthere (by simpa using hold)
    have hwalk := walk_before hat hk3 (kid_of_maps hold) (hp ▸ agree_of_page ha haddr hk3 hpage)
    rw [if_pos hold] at hwalk
    exact ⟨ha, k, _, hwalk, fun _ => .inr ⟨hkn, hwalk⟩⟩
  · rename_i habsent
    have habsent : present (s.mem t (p k)) = false := by
      simpa using habsent
    have hkid : kid k v = kid k (s.mem t (p k)) := by
      rw [kid_of_maps hleaf, kid_of_absent habsent]
    rw [hr]
    have hhere : ∀ {w : Nat}, Agree (pgIndex w) p (k + 1) →
        pgWalk (s.write t (p k) v).mem K.pgKernel w = some (k, v) := by
      intro w hw
      rw [write_here h.separate hat hk3 hkid (kid_of_maps hleaf) hw, if_pos hleaf]
    refine ⟨h.write hat hkid fun _ x a ha hlt hagree => ?_, ⟨fun w j e hw => ?_,
      fun hu w j e hw hj => ?_⟩, fun _ a ha hpage => ?_⟩
    · obtain ⟨rfl, hpage⟩ := page_of_agree hlt haddr hk3 (hp ▸ hagree)
      have hlow := lt_of_physicalTop haddr
      refine shows_of_physical ?_ fun hc => hkn hc.1
      rw [hv]
      exact physical_leaf hlow hk3 (leafBits_lt _ _ _) hpage
    · by_cases hagree : Agree (pgIndex w) p (k + 1)
      · rw [walk_before hat hk3 (kid_of_absent habsent) hagree, maps_of_absent habsent] at hw
        cases hw
      · exact ⟨e, (write_other h.separate hat hkid hagree).trans hw, fun _ => rfl, fun hc => hc⟩
    · by_cases hagree : Agree (pgIndex w) p (k + 1)
      · have heq := (hhere hagree).symm.trans hw
        obtain ⟨-, rfl⟩ := Prod.mk.inj (some.inj heq)
        exact .inr (hcache hu)
      · exact .inl ((write_other h.separate hat hkid hagree).symm.trans hw)
    · exact ⟨ha, k, v, hhere (hp ▸ agree_of_page ha haddr hk3 hpage), fun hu => .inl (hcache hu)⟩

theorem KernelInv.setEntry (haligned : addr % 0x1000 = 0)
    (hat : kernelTable s.mem (K.pgKernel / 0x1000) p 3 = some t) (hv : present v = true)
    (hold : present (s.mem t (p 3)) = true →
      uncached (s.mem t (p 3)) = true → uncached v = true)
    (hcache : isUncached type = true → uncached v = true)
    (hshows : Shows K (isExtended type) addr 3 v) :
    KernelInv K (s.write t (p 3) v) ∧
      MapsMore K type s (s.write t (p 3) v) ∧
      Mapped K type s (s.write t (p 3) v) addr := by
  have hkid : kid 3 v = kid 3 (s.mem t (p 3)) := by
    rfl
  have hhere : ∀ {w : Nat}, Agree (pgIndex w) p (3 + 1) →
      pgWalk (s.write t (p 3) v).mem K.pgKernel w = some (3, v) := by
    intro w hw
    rw [write_here h.separate hat (le_refl 3) hkid (kid_three v) hw, maps_three, if_pos hv]
  refine ⟨h.write hat hkid fun _ x a ha hlt hagree => ?_, ⟨fun w j e hw => ?_,
    fun hu w j e hw hj => ?_⟩, ?_⟩
  · obtain ⟨rfl, hpage⟩ := page_of_agree hlt haddr (le_refl 3) (hp ▸ hagree)
    have hsame : a = addr := by
      have hpage : a / 0x1000 = addr / 0x1000 := hpage
      omega
    rwa [hsame]
  · by_cases hagree : Agree (pgIndex w) p (3 + 1)
    · rw [walk_before hat (le_refl 3) (kid_three _) hagree] at hw
      rw [maps_three] at hw
      split at hw
      · rename_i hthere
        obtain ⟨rfl, rfl⟩ := Prod.mk.inj (some.inj hw)
        exact ⟨v, hhere hagree, fun hc => absurd rfl hc, hold hthere⟩
      · cases hw
    · exact ⟨e, (write_other h.separate hat hkid hagree).trans hw, fun _ => rfl, fun hc => hc⟩
  · by_cases hagree : Agree (pgIndex w) p (3 + 1)
    · have heq := (hhere hagree).symm.trans hw
      exact absurd (Prod.mk.inj (some.inj heq)).1.symm hj
    · exact .inl ((write_other h.separate hat hkid hagree).symm.trans hw)
  · exact ⟨haddr, 3, v, hhere (fun _ _ => by rw [hp]), fun hu => .inl (hcache hu)⟩

theorem KernelInv.setPage (haligned : addr % 0x1000 = 0)
    (hat : kernelTable s.mem (K.pgKernel / 0x1000) p 3 = some t) :
    KernelInv K (pgSetKernelPage K s t addr type) ∧
      MapsMore K type s (pgSetKernelPage K s t addr type) ∧
      Mapped K type s (pgSetKernelPage K s t addr type) addr := by
  have hpage : addr / 0x1000 * 0x1000 = addr := by omega
  have hindex : pgIndex addr 3 = p 3 :=
    hp ▸ (pgIndex_virt haddr (by decide) (le_refl 3)).symm
  obtain ⟨g, hg⟩ : ∃ g, g =
    (decide (addr ≠ K.pgRwVaddr) && (decide (addr < 0x10000000) || isExtended type)) := ⟨_, rfl⟩
  unfold pgSetKernelPage
  simp only [hpage, hindex, ← hg]
  have hlt := leafBits_lt type g false
  by_cases hapic : addr = K.pgApicBaseVaddr
  · rw [if_pos hapic]
    obtain ⟨hun, hpres, -⟩ := or_uncached (K.apicBaseAddr ||| leafBits type g false)
    have hbits : leafBits type g false ||| 0x18 < 0x1000 := Nat.or_lt_two_pow (n := 12) hlt (by decide)
    rw [Nat.or_assoc] at hun hpres
    refine h.setEntry haddr hp haligned hat ?_ (fun _ _ => hun) (fun _ => hun) ?_
    · rw [hpres]
      exact (leaf_bits _ _ _ _).1
    rw [Shows]
    split
    · trivial
    · rw [if_pos ⟨rfl, hapic⟩]
      exact ⟨frameOf_or _ hbits, hun⟩
  rw [if_neg hapic]
  by_cases habsent : present (s.mem t (p 3)) = true
  · rw [if_neg (by simp [habsent])]
    have hwalk := walk_before hat (le_refl 3) (kid_three _)
      (fun _ _ => by rw [hp] : Agree (pgIndex (virt (isExtended type) addr)) p (3 + 1))
    rw [maps_three, if_pos habsent] at hwalk
    by_cases hu : isUncached type = true
    · rw [if_pos hu]
      obtain ⟨hun, hpres, hframe⟩ :=
        or_uncached (s.mem t (p 3))
      refine h.setEntry haddr hp haligned hat (hpres.trans habsent) (fun _ _ => hun)
        (fun _ => hun) ?_
      exact (h.shows _ addr 3 _ haligned haddr hwalk).congr hframe fun _ => hun
    · rw [if_neg hu]
      exact ⟨h, .refl K type s, haddr, 3, _, hwalk, fun hc => absurd hc hu⟩
  · have habsent : present (s.mem t (p 3)) = false := by
      simpa using habsent
    rw [if_pos (by simp [habsent])]
    obtain ⟨hpres, -, hun⟩ := leaf_bits addr type g false
    have hthere : ∀ {P : Prop}, present (s.mem t (p 3)) = true → P := by
      intro P hc
      rw [habsent] at hc
      cases hc
    refine h.setEntry haddr hp haligned hat hpres hthere hun ?_
    refine shows_of_physical ?_ fun hc => hapic hc.2
    have := physical_leaf (lt_of_physicalTop haddr) (le_refl 3) hlt
      (rfl : addr / span 3 = addr / span 3)
    rwa [show addr / span 3 * span 3 = addr from hpage] at this

end Leaf

/-! ## One call of `pg_map_identity` -/

/-- What a call does that returns `r`: when it returns `0`, the page is
mapped. -/
structure Identity (K : PgSettings) (type : Nat) (s : KernelPages) (r : Bool × KernelPages)
    (addr size : Nat) : Prop where
  inv : KernelInv K r.2
  more : MapsMore K type s r.2
  inside : r.1 = false → addr < physicalTop (isExtended type)
  mapped : r.1 = false → ∀ a, a % 0x1000 = 0 → addr ≤ a → a < addr + size → Mapped K type s r.2 a

variable {size : Nat} {r : Bool × KernelPages}

theorem Identity.failed (h : KernelInv K s') (hmore : MapsMore K type s s') :
    Identity K type s (true, s') addr size := ⟨h, hmore, nofun, nofun⟩

theorem Identity.of_walk (hwalk : ∀ v, pgWalk s.mem K.pgKernel v = pgWalk s0.mem K.pgKernel v)
    (h : Identity K type s r addr size) : Identity K type s0 r addr size :=
  ⟨h.inv, (MapsMore.of_walk hwalk).trans h.more, h.inside,
    fun hr a ha hle hlt => (h.mapped hr a ha hle hlt).before (.of_walk hwalk)⟩

theorem Identity.enter {p : Nat → Nat} (h : KernelInv K s) (hk : k < 3)
    (hat : kernelTable s.mem (K.pgKernel / 0x1000) p k = some t)
    {f : Nat → KernelPages → Bool × KernelPages}
    (hf : ∀ u s1, KernelInv K s1 → kernelTable s1.mem (K.pgKernel / 0x1000) p (k + 1) = some u → Identity K type s1 (f u s1) addr size) :
    Identity K type s (match pgEnterStatic s t (p k) (k != 0) with
      | (none, s) => (true, s)
      | (some u, s) => f u s) addr size := by
  rcases hr : pgEnterStatic s t (p k) (k != 0) with ⟨_ | u, s1⟩
  · obtain ⟨h1, hwalk, -⟩ := h.enter hk hat hr
    exact .failed h1 (.of_walk hwalk)
  · obtain ⟨h1, hwalk, hat1⟩ := h.enter hk hat hr
    exact (hf u s1 h1 (hat1 u rfl)).of_walk hwalk

theorem large_inside {x : Bool} (hk : k = 1 ∨ k = 2) (haddr : addr < physicalTop x)
    (haligned : addr % span k = 0) (hle : addr ≤ a) (hlt : a < addr + span k) :
    a < physicalTop x ∧ a / span k = addr / span k := by
  rcases hk with rfl | rfl <;> cases x <;>
    simp only [physicalTop, span, if_true, if_false, Bool.false_eq_true] at haddr haligned hlt ⊢ <;>
    omega

theorem KernelInv.identity (h : KernelInv K s) (addr type : Nat) (pageType : PageType)
    (haligned : addr % pageType.size = 0) :
    Identity K type s (pgMapIdentity K s addr type pageType) addr pageType.size := by
  have hsame : Identity K type s (true, s) addr pageType.size := .failed h (.refl K type s)
  unfold pgMapIdentity
  split
  · exact hsame
  split
  · exact hsame
  rename_i hhigh
  split
  · exact hsame
  rename_i hext
  have haddr : addr < physicalTop (isExtended type) := by
    rw [Nat.shiftRight_eq_div_pow] at hhigh hext
    rw [physicalTop]
    split
    · rename_i hx
      have : ¬ addr / 2 ^ 39 ≠ 0 := fun hc => hext ⟨hx, hc⟩
      omega
    · omega
  have hindex : ∀ {k : Nat}, 0 < k → k ≤ 3 →
      pgIndex addr k = pgIndex (virt (isExtended type) addr) k :=
    fun hk hk3 => (pgIndex_virt haddr hk hk3).symm
  rw [← pgIndex_virt_zero haddr]
  -- The page-directory-pointer table.
  refine Identity.enter h (by decide) rfl fun pdpe s1 h1 hat1 => ?_
  by_cases hgiga : pageType = .giga
  · rw [if_pos hgiga]
    subst hgiga
    rw [pgSetGiga]
    split
    · exact .failed h1 (.refl K type s1)
    rw [hindex (by decide) (by decide)]
    obtain ⟨hinv, hmore, hmapped⟩ := h1.setLarge haddr rfl (.inl rfl) hat1 (isExtended type) rfl
    refine ⟨hinv, hmore, fun _ => haddr, fun hr a _ hle hlt => ?_⟩
    obtain ⟨ha, hpage⟩ := large_inside (.inl rfl) haddr haligned hle hlt
    exact hmapped hr a ha hpage
  rw [if_neg hgiga, hindex (by decide) (by decide)]
  -- The page-directory table.
  refine Identity.enter h1 (by decide) hat1 fun pde s2 h2 hat2 => ?_
  obtain ⟨s3, hs3⟩ : ∃ s3 : KernelPages, s3 = { s2 with
    pgKernelPde := if s2.pgKernelPde = 0 then pde * 0x1000 else s2.pgKernelPde } := ⟨_, rfl⟩
  have hmem3 : s3.mem = s2.mem := by rw [hs3]
  have h3 : KernelInv K s3 := by
    refine ⟨by rw [hmem3]; exact h2.separate, ?_, by rw [hmem3]; exact h2.shows⟩
    rw [hmem3]
    exact h2.holds.congr (by rw [hs3]) (by rw [hs3]) fun _ ht => ht
  rw [← hmem3] at hat2
  have hwalk3 : ∀ v, pgWalk s3.mem K.pgKernel v = pgWalk s2.mem K.pgKernel v := by
    rw [hmem3]
    exact fun _ => rfl
  refine Identity.of_walk hwalk3 ?_
  rw [← hs3]
  by_cases hmega : pageType = .mega
  · rw [if_pos hmega]
    subst hmega
    rw [pgSetMega, hindex (by decide) (by decide)]
    obtain ⟨hinv, hmore, hmapped⟩ := h3.setLarge haddr rfl (.inr rfl) hat2
      (decide (addr / 0x200000 * 0x200000 < 0x10000000) || isExtended type) rfl
    refine ⟨hinv, hmore, fun _ => haddr, fun hr a _ hle hlt => ?_⟩
    obtain ⟨ha, hpage⟩ := large_inside (.inr rfl) haddr haligned hle hlt
    exact hmapped hr a ha hpage
  rw [if_neg hmega, hindex (by decide) (by decide)]
  obtain rfl : pageType = .page := by
    cases pageType with
    | page => rfl
    | mega => exact absurd rfl hmega
    | giga => exact absurd rfl hgiga
  -- The page table.
  refine Identity.enter h3 (by decide) hat2 fun pte s4 h4 hat4 => ?_
  obtain ⟨hinv, hmore, hmapped⟩ := h4.setPage haddr rfl haligned hat4
  refine ⟨hinv, hmore, fun _ => haddr, fun _ a ha hle hlt => ?_⟩
  obtain rfl : a = addr := by
    simp only [PageType.size] at haligned hlt
    omega
  exact hmapped

theorem KernelInv.tryLarge (h : KernelInv K s) (addr type sub : Nat) (pageType : PageType) :
    Identity K type s (pgTryLarge K s addr type sub pageType) addr pageType.size ∧
      ((pgTryLarge K s addr type sub pageType).1 = false → pageType.size ≤ sub) := by
  rw [pgTryLarge]
  split
  · rename_i hbegins
    exact ⟨h.identity addr type pageType hbegins.1, fun _ => hbegins.2⟩
  · exact ⟨.failed h (.refl K type s), nofun⟩

/-- What the rounds from `addrBeg` on do. -/
structure Looped (K : PgSettings) (type : Nat) (s : KernelPages) (r : Bool × KernelPages)
    (addrBeg stop : Nat) : Prop where
  inv : KernelInv K r.2
  more : MapsMore K type s r.2
  mapped : r.1 = false → ∀ a, a % 0x1000 = 0 → addrBeg ≤ a → a < stop → Mapped K type s r.2 a

theorem Looped.round {s1 : KernelPages} {stop : Nat} (h : Identity K type s (false, s1) addr size)
    (h' : Looped K type s1 r (addr + size) stop) : Looped K type s r addr stop := by
  refine ⟨h'.inv, h.more.trans h'.more, fun hr a ha hle hlt => ?_⟩
  by_cases hnow : a < addr + size
  · exact (h.mapped rfl a ha hle hnow).after h'.more
  · exact (h'.mapped hr a ha (Nat.le_of_not_lt hnow) hlt).before h.more

theorem Looped.after_failed {s1 : KernelPages} {stop : Nat}
    (h : Identity K type s (true, s1) addr size) (h' : Looped K type s1 r addr stop) :
    Looped K type s r addr stop :=
  ⟨h'.inv, h.more.trans h'.more, fun hr a ha hle hlt => (h'.mapped hr a ha hle hlt).before h.more⟩

theorem KernelInv.loop (rounds : Nat) : ∀ {s : KernelPages} {addrBeg stop : Nat}, KernelInv K s →
    0 < addrBeg → addrBeg ≤ stop → stop ≤ addrTop → addrBeg % 0x1000 = 0 → stop % 0x1000 = 0 →
      stop - addrBeg ≤ rounds * 0x1000 →
        Looped K type s (pgMapKernelLoop K type (stop % addrTop) rounds s addrBeg) addrBeg stop := by
  induction rounds with
  | zero =>
    intro s addrBeg stop h _ _ _ _ _ hrounds
    exact ⟨h, .refl K type s, fun _ a _ hle hlt => by omega⟩
  | succ rounds ih =>
    intro s addrBeg stop h hpos hle htop hbeg hstop hrounds
    have hsub : (stop % addrTop + addrTop - addrBeg) % addrTop = stop - addrBeg := by
      unfold addrTop at *
      omega
    -- A page that was mapped, and the next rounds.
    have hnext : ∀ {s0 s1 : KernelPages} (pageType : PageType),
        Identity K type s0 (false, s1) addrBeg pageType.size → pageType.size ≤ stop - addrBeg →
          Looped K type s0 (pgMapKernelLoop K type (stop % addrTop) rounds s1
            ((addrBeg + pageType.size) % addrTop)) addrBeg stop := by
      intro s0 s1 pageType h1 hfit
      have hlow := lt_of_physicalTop (h1.inside rfl)
      have hsize : 0x1000 ≤ pageType.size ∧ pageType.size ≤ 0x40000000 ∧
          pageType.size % 0x1000 = 0 := by
        cases pageType <;> decide
      have hmod : (addrBeg + pageType.size) % addrTop = addrBeg + pageType.size := by
        unfold addrTop
        omega
      rw [hmod]
      exact .round h1 (ih h1.inv (by omega) (by omega) htop (by omega) hstop (by omega))
    rw [pgMapKernelLoop, hsub]
    by_cases hdone : stop - addrBeg = 0
    · rw [if_pos hdone]
      exact ⟨h, .refl K type s, fun _ a _ hle' hlt => by omega⟩
    rw [if_neg hdone]
    obtain ⟨h1, hfit1⟩ := h.tryLarge addrBeg type (stop - addrBeg) .giga
    rcases hr1 : pgTryLarge K s addrBeg type (stop - addrBeg) .giga with ⟨_ | _, s1⟩
    · rw [hr1] at h1 hfit1
      exact hnext .giga h1 (hfit1 rfl)
    rw [hr1] at h1
    refine .after_failed h1 ?_
    dsimp only
    obtain ⟨h2, hfit2⟩ := KernelInv.tryLarge h1.inv addrBeg type (stop - addrBeg) .mega
    rcases hr2 : pgTryLarge K s1 addrBeg type (stop - addrBeg) .mega with ⟨_ | _, s2⟩
    · rw [hr2] at h2 hfit2
      exact hnext .mega h2 (hfit2 rfl)
    rw [hr2] at h2
    refine .after_failed h2 ?_
    dsimp only
    have h3 := KernelInv.identity h2.inv addrBeg type .page hbeg
    rcases hr3 : pgMapIdentity K s2 addrBeg type .page with ⟨_ | _, s3⟩
    · rw [hr3] at h3
      refine hnext .page h3 ?_
      show 0x1000 ≤ stop - addrBeg
      omega
    · rw [hr3] at h3
      exact ⟨h3.inv, h3.more, nofun⟩

theorem end_of_range {addr : Nat} (htop : addr + size ≤ addrTop) :
    ((addr + size) % addrTop + 0xFFF) % addrTop / 0x1000 * 0x1000 =
      (addr + size + 0xFFF) / 0x1000 * 0x1000 % addrTop ∧
      (addr + size + 0xFFF) / 0x1000 * 0x1000 ≤ addrTop := by
  unfold addrTop at *
  omega

theorem KernelInv.mapKernel (h : KernelInv K s) (cr3 : Nat) (locked : Bool)
    (addr size type : Nat) :
    KernelInv K (pgMapKernel K s cr3 locked addr size type).2 ∧
      ((pgMapKernel K s cr3 locked addr size type).1 ≠ 0 →
        (pgMapKernel K s cr3 locked addr size type).1 = virt (isExtended type) addr ∧
        ∀ a, a % 0x1000 = 0 → addr / 0x1000 * 0x1000 ≤ a → a < addr + size →
          Mapped K type s (pgMapKernel K s cr3 locked addr size type).2 a) := by
  unfold pgMapKernel
  split
  · exact ⟨h, fun hc => absurd rfl hc⟩
  dsimp only
  iterate 3
    split
    · exact ⟨h, fun hc => absurd rfl hc⟩
  have htop : addr + size ≤ addrTop := by
    omega
  obtain ⟨hend, hstop⟩ := end_of_range htop
  obtain ⟨stop, hs⟩ : ∃ stop, stop = (addr + size + 0xFFF) / 0x1000 * 0x1000 := ⟨_, rfl⟩
  rw [hend, ← hs]
  rw [← hs] at hstop
  have hsub : (stop % addrTop + addrTop - addr / 0x1000 * 0x1000) % addrTop =
      stop - addr / 0x1000 * 0x1000 := by
    unfold addrTop at *
    omega
  rw [hsub]
  have hloop : Looped K type s (pgMapKernelLoop K type (stop % addrTop)
      ((stop - addr / 0x1000 * 0x1000) / 0x1000) s (addr / 0x1000 * 0x1000))
      (addr / 0x1000 * 0x1000) stop := h.loop _
    (by omega) (show addr / 0x1000 * 0x1000 ≤ stop by omega) hstop
    (by omega) (by omega) (by omega)
  rcases hr : pgMapKernelLoop K type (stop % addrTop) ((stop - addr / 0x1000 * 0x1000) / 0x1000) s
    (addr / 0x1000 * 0x1000) with ⟨failed, s1⟩
  rw [hr] at hloop
  refine ⟨hloop.inv, fun hv => ?_⟩
  cases failed with
  | true => simp at hv
  | false =>
    refine ⟨?_, fun a ha hle hlt => hloop.mapped rfl a ha hle (by omega)⟩
    have hne : addr ≠ 0 := by omega
    simp only [Bool.false_eq_true, if_false]
    by_cases hext : isExtended type = true
    · rw [if_pos ⟨hne, hext⟩, hext]
    · rw [if_neg fun hc => hext hc.2, virt, if_neg hext]

/-! ## Runs -/

/-- `pg_read_memory` and `pg_write_memory` let the slot show a page. -/
def pgShow (K : PgSettings) (s : KernelPages) (addr : Nat) : KernelPages :=
  if addr / 0x10000000000000 ≠ 0 then s
  else
    match pgGetEntry s.mem K.pgKernel K.pgRwVaddr with
    | none => s
    | some (t, i) => s.write t i (s.mem t i % 0x1000 ||| addr / 0x1000 * 0x1000)

inductive KernelOp where
  | map (cr3 : Nat) (locked : Bool) (addr size type : Nat)
  | showPage (addr : Nat)
  | mark (addr k e : Nat)
  | other

/-- What happens to the tables of the kernel: a call, a flag of an entry that
the processor or `fb.c` changes, or anything else that leaves the tables alone
and the allocators in order. -/
inductive KernelStep (K : PgSettings) : KernelPages → KernelOp → KernelPages → Prop where
  | map (s : KernelPages) (cr3 : Nat) (locked : Bool) (addr size type : Nat) :
      KernelStep K s (.map cr3 locked addr size type) (pgMapKernel K s cr3 locked addr size type).2
  | showPage (s : KernelPages) (addr : Nat) : KernelStep K s (.showPage addr) (pgShow K s addr)
  | mark (s : KernelPages) (addr k t e : Nat) :
      kernelTable s.mem (K.pgKernel / 0x1000) (pgIndex addr) k = some t →
      SameEntry (s.mem t (pgIndex addr k)) e →
      KernelStep K s (.mark addr k e) (s.write t (pgIndex addr k) e)
  | other (s s' : KernelPages) :
      (∀ t, IsTable K s.mem t → s'.mem t = s.mem t) → Holds s' (IsTable K s.mem) →
      KernelStep K s .other s'

/-- The state in which `pg_init` begins to map: `pg_kernel` is a static page. -/
structure KernelBoot (K : PgSettings) (s : KernelPages) : Prop where
  empty : ∀ i, s.mem (K.pgKernel / 0x1000) i = 0
  holds : Holds s fun t => t = K.pgKernel / 0x1000

theorem KernelInv.boot (h : KernelBoot K s) : KernelInv K s := by
  have hnone : ∀ k i, kid k (s.mem (K.pgKernel / 0x1000) i) = none := fun k i => by
    rw [h.empty]
    exact kid_of_absent rfl
  have hroot : ∀ {q : Nat → Nat} {j t : Nat},
      kernelTable s.mem (K.pgKernel / 0x1000) q j = some t → j = 0 := by
    intro q j t ht
    by_contra hj
    rw [kernelTable_beyond rfl (hnone 0 _) (Nat.pos_of_ne_zero hj)] at ht
    cases ht
  refine ⟨.single (hnone 0), h.holds.congr rfl rfl ?_, fun x a k e _ _ hwalk => ?_⟩
  · rintro t ⟨q, j, ht⟩
    obtain rfl := hroot ht
    exact (some.inj ht).symm
  · obtain ⟨-, t, ht, he, hm⟩ := pgWalk_iff.mp hwalk
    obtain rfl := hroot ht
    rw [maps_zero] at hm
    cases hm

section

variable (h : KernelInv K s)
include h

theorem KernelInv.showPage (addr : Nat) : KernelInv K (pgShow K s addr) := by
  rw [pgShow]
  split
  · exact h
  rcases hentry : pgGetEntry s.mem K.pgKernel K.pgRwVaddr with _ | ⟨t, i⟩
  · exact h
  obtain ⟨hlim, ht, rfl⟩ := pgGetEntry_eq_some.mp hentry
  rw [tableAt_eq (le_refl 3)] at ht
  refine h.write ht (by rfl) fun _ x a ha hlt hagree => ?_
  have hrw : K.pgRwVaddr < physicalTop false := by
    rw [physicalTop, if_neg (by decide)]
    omega
  obtain ⟨rfl, hpage⟩ := page_of_agree (y := false) hlt hrw (le_refl 3) hagree
  have hpage : a / 0x1000 = K.pgRwVaddr / 0x1000 := hpage
  have hrwAligned := K.rwAligned
  rw [Shows, if_pos ⟨rfl, by omega, rfl⟩]
  trivial

theorem KernelInv.mark (hat : kernelTable s.mem (K.pgKernel / 0x1000) (pgIndex addr) k = some t)
    (hsame : SameEntry (s.mem t (pgIndex addr k)) e) :
    KernelInv K (s.write t (pgIndex addr k) e) := by
  obtain ⟨hmaps, hkid, hcache, hframe⟩ := hsame.maps_kid k
  refine h.write hat hkid fun hm x a ha hlt hagree => ?_
  have hnone : kid k (s.mem t (pgIndex addr k)) = none := by
    rw [← hkid]
    exact kid_of_maps hm
  have hwalk := walk_before hat (kernelTable_le hat) hnone hagree
  rw [if_pos (hmaps ▸ hm)] at hwalk
  exact (h.shows x a k _ ha hlt hwalk).congr hframe fun hc => hcache.trans hc

theorem KernelInv.other (hmem : ∀ t, IsTable K s.mem t → s'.mem t = s.mem t)
    (hholds : Holds s' (IsTable K s.mem)) : KernelInv K s' := by
  have htables : ∀ q j, kernelTable s'.mem (K.pgKernel / 0x1000) q j =
      kernelTable s.mem (K.pgKernel / 0x1000) q j :=
    fun q j => Descent.tableAt_same q fun i _ t ht => by rw [hmem t ⟨q, i, ht⟩]
  refine ⟨h.separate.congr htables, hholds.congr rfl rfl ?_, fun x a k e ha hlt hwalk => ?_⟩
  · rintro t ⟨q, j, ht⟩
    exact ⟨q, j, (htables q j).symm.trans ht⟩
  · obtain ⟨hk, t, ht, he, hm⟩ := pgWalk_iff.mp hwalk
    have ht' := (htables _ k).symm.trans ht
    rw [hmem t ⟨_, k, ht'⟩] at he
    exact h.shows x a k e ha hlt (pgWalk_iff.mpr ⟨hk, t, ht', he, hm⟩)

theorem KernelInv.step {op : KernelOp} (hs : KernelStep K s op s') : KernelInv K s' := by
  cases hs with
  | map cr3 locked addr size type => exact (h.mapKernel cr3 locked addr size type).1
  | showPage addr => exact h.showPage addr
  | mark addr k t e hat hsame => exact h.mark hat hsame
  | other _ hmem hholds => exact h.other hmem hholds

end

/-- **`pg_map_kernel`**: in every state that the kernel can come to, a result
other than NULL is the virtual address of the range, and every page of the
range is present and shows what it should. When no caching is wanted, it is
uncached, unless a large page was there before the call. -/
theorem map_kernel_of_run {ops : List KernelOp} (hboot : KernelBoot K s0)
    (hrun : Run (KernelStep K) s0 ops s) (cr3 : Nat) (locked : Bool) (addr size type : Nat)
    (hresult : (pgMapKernel K s cr3 locked addr size type).1 ≠ 0) :
    (pgMapKernel K s cr3 locked addr size type).1 = virt (isExtended type) addr ∧
      ∀ a, a % 0x1000 = 0 → addr / 0x1000 * 0x1000 ≤ a → a < addr + size →
        ∃ k e, pgWalk (pgMapKernel K s cr3 locked addr size type).2.mem K.pgKernel
            (virt (isExtended type) a) = some (k, e) ∧
          Shows K (isExtended type) a k e ∧
          (isUncached type = true → uncached e = true ∨
            k ≠ 3 ∧ pgWalk s.mem K.pgKernel (virt (isExtended type) a) = some (k, e)) := by
  have h : KernelInv K s := hrun.invariant (fun _ _ _ h hs => h.step hs) (.boot hboot)
  obtain ⟨hinv, hmapped⟩ := h.mapKernel cr3 locked addr size type
  obtain ⟨hvalue, hpages⟩ := hmapped hresult
  refine ⟨hvalue, fun a ha hle hlt => ?_⟩
  obtain ⟨hinside, k, e, hwalk, hcache⟩ := hpages a ha hle hlt
  exact ⟨k, e, hwalk, hinv.shows _ a k e ha hinside hwalk, hcache⟩

/-- A kernel whose local APIC lies at `0xFEE00000` and has its page at
`0x200000`. -/
def bootSettings : PgSettings where
  pgKernel := 0x100000
  pgRwVaddr := 0x101000
  pgApicBaseVaddr := 0x200000
  apicBaseAddr := 0xFEE00000
  gpage := true
  rwAligned := rfl

/-- Nothing is mapped yet, and the heap begins behind the slot. -/
def bootPages : KernelPages where
  mem := fun _ _ => 0
  mm := ⟨false, 0, 0, fun _ => 0#8⟩
  heap := ⟨0x102000, 0x1000, 0x103000, 0x180000⟩
  pgReady := false
  pgKernelPde := 0

/-- The first mapping of two pages. -/
theorem map_kernel_of_run_first :
    (pgMapKernel bootSettings bootPages 0 true 0x300000 0x2000 pgUncached).1 =
      virt (isExtended pgUncached) 0x300000 := by
  have hheap : HeapOk bootPages.heap :=
    ⟨by decide, by decide, by decide, fun _ => rfl, by decide, by decide⟩
  have hboot : KernelBoot bootSettings bootPages :=
    ⟨fun _ => rfl, hheap, nofun, nofun, nofun, fun t ht => ⟨nofun, .inl (by subst ht; decide)⟩⟩
  exact (map_kernel_of_run hboot (.nil _) 0 true 0x300000 0x2000 pgUncached
    (by decide +kernel)).1

/-- The page of the local APIC shows its registers. And a cached page of 2 MiB
stays cached when it is mapped again without caching. -/
theorem map_kernel_special :
    ((pgMapKernel bootSettings bootPages 0 true 0x200000 0x1000 pgUncached).1 = 0x200000 ∧
      pgWalk (pgMapKernel bootSettings bootPages 0 true 0x200000 0x1000 pgUncached).2.mem
        bootSettings.pgKernel 0x200000 = some (3, 0xFEE0013B) ∧
      physical 3 0xFEE0013B 0x200000 = 0xFEE00000) ∧
    let s := (pgMapKernel bootSettings bootPages 0 true 0x10000000 0x200000 0).2
    (pgMapKernel bootSettings s 0 true 0x10000000 0x200000 pgUncached).1 = 0x10000000 ∧
      pgWalk (pgMapKernel bootSettings s 0 true 0x10000000 0x200000 pgUncached).2.mem
        bootSettings.pgKernel 0x10000000 = some (2, 0x100000A3) ∧
      uncached 0x100000A3 = false := by
  decide +kernel

end Dancy.Pg
