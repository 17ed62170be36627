import Dancy.Boot.Memory

/-!
# The memory map over whole runs

The map is read as a line cut into areas (`Lib.Segments`): `kindAt` says
what is known of an address, `allocs` are the allocated areas. The numbers
of allocated areas are left out of the kind, `fix_memory_map` changes them.
-/

namespace Dancy.Boot

open Dancy.Lib Dancy.Lib.Segments List Option

structure Kind where
  (type flags other : Nat)

/-- The kind of an area; all allocated areas are of one type. -/
def kind (m : BMem) : Kind := ⟨if isAlloc m then bMemInitAllocMin else m.type, m.flags, m.other⟩

def under (m : BMem) : Kind := ⟨if isAlloc m then bMemNormal else m.type, m.flags, m.other⟩

def kindAt (map : List BMem) (x : Nat) : Option Kind := (segAt BMem.base map x).map kind

def underAt (map : List BMem) (x : Nat) : Option Kind := (segAt BMem.base map x).map under

/-- The allocated areas, from their first address up to the one after the last. -/
def allocs (map : List BMem) : List (Nat × Nat) := blocks BMem.base isAlloc addrSpace map

/-- Neighbours differ, except at `0x100000000`. -/
def Merged (map : List BMem) : Prop :=
  map.IsChain fun m1 m2 => m2.base = 0x100000000 ∨ sameArea m1 m2 = false

/-- The map cuts the whole address space into areas that are not empty. -/
structure Covers (map : List BMem) : Prop where
  first : ∃ m rest, map = m :: rest ∧ m.base = 0
  strict : map.Pairwise fun m1 m2 => m1.base < m2.base
  lt_top : ∀ m ∈ map, m.base < addrSpace

/-! ## Merging -/

/-- What `fix_memory_map` needs: only a new allocated area can begin where
the area before it does, and numbers of allocated areas occur once. -/
structure Fixable (m1 m2 : BMem) : Prop where
  le : m1.base ≤ m2.base
  eq : m1.base = m2.base → isAlloc m1 = false ∧ isAlloc m2 = true ∧ m2.base ≠ 0x100000000
  type_ne : isAlloc m2 = true → m1.type ≠ m2.type

variable {m1 m2 m : BMem} {l : List BMem}

theorem isAlloc_congr (h : m1.type = m2.type) : isAlloc m1 = isAlloc m2 := by
  unfold isAlloc
  rw [h]

theorem sameArea_iff :
    sameArea m1 m2 = true ↔ m1.type = m2.type ∧ m1.flags = m2.flags ∧ m1.other = m2.other :=
  decide_eq_true_iff

theorem kind_of_sameArea (h : sameArea m1 m2 = true) : kind m1 = kind m2 := by
  obtain ⟨htype, hflags, hother⟩ := sameArea_iff.mp h
  unfold kind
  rw [isAlloc_congr htype, htype, hflags, hother]

theorem under_eq (m : BMem) :
    under m = if isAlloc m then { kind m with type := bMemNormal } else kind m := by
  unfold under kind
  split <;> rfl

variable {β : Type} (rest : List BMem)

theorem mergeAreas_cons (h : Fixable m1 m2) :
    (m1.base = m2.base ∧ isAlloc m1 = false ∧ isAlloc m2 = true ∧
        mergeAreas m1 (m2 :: rest) = mergeAreas m2 rest) ∨
      (m1.base < m2.base ∧ isAlloc m2 = false ∧ sameArea m1 m2 = true ∧
        mergeAreas m1 (m2 :: rest) = mergeAreas m1 rest) ∨
      (m1.base < m2.base ∧ (m2.base = 0x100000000 ∨ sameArea m1 m2 = false) ∧
        mergeAreas m1 (m2 :: rest) = m1 :: mergeAreas m2 rest) := by
  rw [mergeAreas]
  rcases eq_or_lt_of_le h.le with heq | hlt
  · obtain ⟨hm1, hm2, hne⟩ := h.eq heq
    have hskip : ¬ (baseLow m2 = 0 ∧ baseHigh m2 = 1) := by
      unfold baseLow baseHigh
      omega
    have hsame : sameArea m2 m2 = true := sameArea_iff.mpr ⟨rfl, rfl, rfl⟩
    exact .inl ⟨heq, hm1, hm2, by rw [if_neg hskip, if_pos heq, if_pos hsame]⟩
  · by_cases hskip : baseLow m2 = 0 ∧ baseHigh m2 = 1
    · refine .inr (.inr ⟨hlt, .inl ?_, by rw [if_pos hskip]⟩)
      unfold baseLow baseHigh at hskip
      omega
    rw [if_neg hskip, if_neg (ne_of_lt hlt)]
    cases hsame : sameArea m1 m2 with
    | true =>
      have htype := (sameArea_iff.mp hsame).1
      have halloc : isAlloc m2 = false := by
        cases hm2 : isAlloc m2 with
        | true => exact absurd htype (h.type_ne hm2)
        | false => rfl
      exact .inr (.inl ⟨hlt, halloc, rfl, by simp only [hsame, if_true]⟩)
    | false =>
      exact .inr (.inr ⟨hlt, .inr rfl, by simp only [hsame, Bool.false_eq_true, if_false]⟩)

theorem pairwise_skip {rest : List BMem} (h : (m1 :: m2 :: rest).Pairwise Fixable) :
    (m1 :: rest).Pairwise Fixable :=
  h.sublist ((sublist_cons_self m2 rest).cons_cons m1)

theorem sorted_of_fixable (h : l.Pairwise Fixable) : Sorted BMem.base l :=
  h.imp Fixable.le

/-- How `mergeAreas` goes through an array that is `Fixable`: the first area
is empty, or it takes in the next one, or it stays. -/
inductive Merging : BMem → List BMem → List BMem → Prop
  | last (m1 : BMem) : Merging m1 [] [m1]
  | empty {m1 m2 : BMem} {rest out : List BMem} (h : (m1 :: m2 :: rest).Pairwise Fixable)
      (hbase : m1.base = m2.base) (h1 : isAlloc m1 = false) (h2 : isAlloc m2 = true) :
      Merging m2 rest out → Merging m1 (m2 :: rest) out
  | same {m1 m2 : BMem} {rest out : List BMem} (hlt : m1.base < m2.base)
      (h2 : isAlloc m2 = false) (hsame : sameArea m1 m2 = true) :
      Merging m1 rest out → Merging m1 (m2 :: rest) out
  | cut {m1 m2 : BMem} {rest out : List BMem} (h : (m1 :: m2 :: rest).Pairwise Fixable)
      (hlt : m1.base < m2.base) (hdiff : m2.base = 0x100000000 ∨ sameArea m1 m2 = false) :
      Merging m2 rest out → Merging m1 (m2 :: rest) (m1 :: out)

theorem mergeAreas_merging : ∀ m1 : BMem, (m1 :: rest).Pairwise Fixable →
    Merging m1 rest (mergeAreas m1 rest) := by
  induction rest with
  | nil => exact fun m1 _ => .last m1
  | cons m2 rest ih =>
    intro m1 h
    rcases mergeAreas_cons rest (rel_of_pairwise_cons h mem_cons_self) with
      ⟨hbase, h1, h2, heq⟩ | ⟨hlt, h2, hsame, heq⟩ | ⟨hlt, hdiff, heq⟩
    · exact heq ▸ .empty h hbase h1 h2 (ih m2 h.of_cons)
    · exact heq ▸ .same hlt h2 hsame (ih m1 (pairwise_skip h))
    · exact heq ▸ .cut h hlt hdiff (ih m2 h.of_cons)

namespace Merging

variable {rest out : List BMem}

theorem sub (hm : Merging m1 rest out) : ∀ m ∈ out, m ∈ m1 :: rest := by
  induction hm with
  | last => exact fun m h => h
  | empty _ _ _ _ _ ih => exact fun m h => mem_cons_of_mem _ (ih m h)
  | same _ _ _ _ ih =>
    intro m h
    rcases mem_cons.mp (ih m h) with rfl | h
    · exact mem_cons_self
    · exact .tail _ (.tail _ h)
  | cut _ _ _ _ ih => exact fun m h => mem_cons.mpr ((mem_cons.mp h).imp_right (ih m))

theorem length_le (hm : Merging m1 rest out) : out.length ≤ rest.length + 1 := by
  induction hm with
  | last => exact le_refl 1
  | empty _ _ _ _ _ ih | same _ _ _ _ ih => exact Nat.le_succ_of_le ih
  | cut _ _ _ _ ih => exact Nat.succ_le_succ ih

/-- The first area stays, or the allocated area that begins with it does. -/
theorem head (hm : Merging m1 rest out) :
    ∃ m tail, out = m :: tail ∧ m.base = m1.base ∧ (m = m1 ∨ isAlloc m = true ∧ m ∈ rest) := by
  induction hm with
  | last m1 => exact ⟨m1, [], rfl, rfl, .inl rfl⟩
  | empty _ hbase _ h2 _ ih =>
    obtain ⟨m, tail, hm, hb, hkeep⟩ := ih
    refine ⟨m, tail, hm, hb.trans hbase.symm, .inr ?_⟩
    rcases hkeep with rfl | ⟨hm', hmem⟩
    · exact ⟨h2, mem_cons_self⟩
    · exact ⟨hm', mem_cons_of_mem _ hmem⟩
  | same _ _ _ _ ih =>
    obtain ⟨m, tail, hm, hb, hkeep⟩ := ih
    exact ⟨m, tail, hm, hb, hkeep.imp_right fun hk => ⟨hk.1, mem_cons_of_mem _ hk.2⟩⟩
  | cut => exact ⟨_, _, rfl, rfl, .inl rfl⟩

theorem map_segAt {f : BMem → β} (hf : ∀ m1 m2, sameArea m1 m2 = true → f m1 = f m2) (x : Nat)
    (hm : Merging m1 rest out) :
    (segAt BMem.base out x).map f = (segAt BMem.base (m1 :: rest) x).map f := by
  have hcons : ∀ m l, segAt BMem.base (m :: l) x =
      (segAt BMem.base l x).or (if m.base ≤ x then some m else none) := fun _ _ => rfl
  induction hm with
  | last => rfl
  | @empty m1 m2 rest _ h hbase _ _ _ ih =>
    -- the first area is empty
    rw [ih, hcons m1]
    cases hrest : segAt BMem.base (m2 :: rest) x with
    | some r => rfl
    | none =>
      have hx := (segAt_cons_none (sorted_of_fixable h.of_cons)).mp hrest
      rw [none_or, if_neg (by omega)]
  | @same m1 m2 rest _ hlt _ hsame _ ih =>
    rw [ih, hcons m1, hcons m1, hcons m2]
    cases segAt BMem.base rest x with
    | some r => rfl
    | none =>
      rw [none_or, none_or]
      by_cases hx : m2.base ≤ x
      · rw [if_pos hx, if_pos (by omega), some_or, map_some, map_some, hf m1 m2 hsame]
      · rw [if_neg hx, none_or]
  | @cut m1 m2 rest out _ _ _ _ ih =>
    rw [hcons m1, hcons m1]
    cases h1 : segAt BMem.base out x with
    | some r =>
      cases h2 : segAt BMem.base (m2 :: rest) x with
      | some r' =>
        rw [h1, h2] at ih
        exact ih
      | none =>
        rw [h1, h2] at ih
        cases ih
    | none =>
      cases h2 : segAt BMem.base (m2 :: rest) x with
      | some r' =>
        rw [h1, h2] at ih
        cases ih
      | none => rfl

theorem allocs_eq (hm : Merging m1 rest out) : allocs out = allocs (m1 :: rest) := by
  have hcons : ∀ m l, allocs (m :: l) =
      if isAlloc m then (m.base, nextBase BMem.base addrSpace l) :: allocs l
      else allocs l := fun _ _ => rfl
  induction hm with
  | last => rfl
  | @empty m1 _ _ _ _ _ h1 _ _ ih => rw [ih, hcons m1, if_neg (by simp [h1])]
  | @same m1 m2 _ _ _ h2 hsame _ ih =>
    have h1 : isAlloc m1 = false := (isAlloc_congr (sameArea_iff.mp hsame).1).trans h2
    rw [ih, hcons m1, hcons m1, hcons m2]
    simp only [h1, h2, Bool.false_eq_true, if_false]
  | @cut m1 m2 _ out _ _ _ hm ih =>
    obtain ⟨m, tail, hm, hb, -⟩ := hm.head
    have hnext : nextBase BMem.base addrSpace out = m2.base := by
      rwa [hm]
    rw [hcons m1, hcons m1, hnext, ih]
    rfl

theorem strict (hm : Merging m1 rest out) : out.Pairwise fun m m' => m.base < m'.base := by
  induction hm with
  | last => exact pairwise_singleton _ _
  | empty _ _ _ _ _ ih | same _ _ _ _ ih => exact ih
  | cut h hlt _ hm ih =>
    refine .cons (fun m hmem => ?_) ih
    rcases mem_cons.mp (hm.sub m hmem) with rfl | hmem
    · exact hlt
    · exact lt_of_lt_of_le hlt (rel_of_pairwise_cons h.of_cons hmem).le

theorem merged (hm : Merging m1 rest out) : Merged out := by
  induction hm with
  | last => exact List.IsChain.singleton _
  | empty _ _ _ _ _ ih | same _ _ _ _ ih => exact ih
  | cut h _ hdiff hm ih =>
    obtain ⟨m, tail, rfl, hb, hkeep⟩ := hm.head
    refine isChain_cons_cons.mpr ⟨?_, ih⟩
    rcases hkeep with rfl | ⟨halloc, hmem⟩
    · exact hdiff
    · -- an allocated area has a number of its own
      have hfix := rel_of_pairwise_cons h (.tail _ hmem)
      refine .inr (Bool.eq_false_iff.mpr fun hsame => ?_)
      exact hfix.type_ne halloc (sameArea_iff.mp hsame).1

end Merging

/-! ## Numbering -/

theorem isAlloc_number {a : Nat} (ha : a < 0xFFFF) :
    isAlloc { m with type := bMemInitAllocMin + a } = true := by
  refine decide_eq_true ?_
  show bMemInitAllocMin ≤ bMemInitAllocMin + a ∧ bMemInitAllocMin + a ≤ bMemInitAllocMax
  unfold bMemInitAllocMin bMemInitAllocMax
  omega

/-- Only the number of an allocated area changes. -/
structure Renumbered (m m' : BMem) : Prop where
  base : m'.base = m.base
  flags : m'.flags = m.flags
  other : m'.other = m.other
  alloc : isAlloc m' = isAlloc m
  free : isAlloc m = false → m'.type = m.type

theorem Renumbered.refl (m : BMem) : Renumbered m m := ⟨rfl, rfl, rfl, rfl, fun _ => rfl⟩

theorem Renumbered.kind_eq {m' : BMem} (h : Renumbered m m') : kind m' = kind m := by
  unfold kind
  rw [h.alloc, h.flags, h.other]
  cases hm : isAlloc m with
  | true => rfl
  | false => simp only [h.free hm]

theorem renumber_forall (l : List BMem) : ∀ a, a + l.length ≤ 0xFFFF →
    List.Forall₂ Renumbered l (renumber a l) := by
  induction l with
  | nil => exact fun a _ => List.Forall₂.nil
  | cons m l ih =>
    intro a ha
    rw [length_cons] at ha
    rw [renumber]
    split
    · rename_i hm
      have hnum : isAlloc { m with type := bMemInitAllocMin + a } = true :=
        isAlloc_number (by omega)
      refine List.Forall₂.cons ⟨rfl, rfl, rfl, hnum.trans hm.symm, fun hf => ?_⟩
        (ih (a + 1) (by omega))
      rw [hm] at hf
      cases hf
    · exact List.Forall₂.cons (.refl m) (ih a (by omega))

theorem map_of_renumbered {f : BMem → β} (hf : ∀ m m', Renumbered m m' → f m' = f m)
    {l' : List BMem} (h : List.Forall₂ Renumbered l l') : l'.map f = l.map f := by
  induction h with
  | nil => rfl
  | cons hm _ ih => simp [ih, hf _ _ hm]

theorem renumber_type_ge (l : List BMem) : ∀ a, ∀ m ∈ renumber a l, isAlloc m = true →
    bMemInitAllocMin + a ≤ m.type := by
  induction l with
  | nil => exact fun a m hm => absurd hm not_mem_nil
  | cons m l ih =>
    intro a m' hm' halloc
    rw [renumber] at hm'
    split at hm'
    · rcases mem_cons.mp hm' with rfl | hm'
      · simp
      · exact le_trans (Nat.le_succ _) (ih (a + 1) m' hm' halloc)
    · rename_i hm
      rcases mem_cons.mp hm' with rfl | hm'
      · exact absurd halloc hm
      · exact ih a m' hm' halloc

theorem type_ne_of_alloc {m' : BMem} (hm : isAlloc m = false) (hm' : isAlloc m' = true) :
    m.type ≠ m'.type := by
  intro h
  rw [isAlloc_congr h, hm'] at hm
  cases hm

theorem renumber_types (l : List BMem) : ∀ a,
    (renumber a l).Pairwise fun m m' => isAlloc m' = true → m.type ≠ m'.type := by
  induction l with
  | nil => exact fun a => List.Pairwise.nil
  | cons m l ih =>
    intro a
    rw [renumber]
    split
    · refine List.Pairwise.cons (fun m' hm' halloc => ?_) (ih (a + 1))
      have hge := renumber_type_ge l (a + 1) m' hm' halloc
      show bMemInitAllocMin + a ≠ m'.type
      omega
    · rename_i hm
      refine List.Pairwise.cons (fun m' _ halloc => ?_) (ih a)
      exact type_ne_of_alloc (Bool.eq_false_iff.mpr hm) halloc

/-! ## Fixing -/

/-- Bases do not decrease; only a new area can begin where the one before
it does. -/
def slack (a b : Nat × Bool) : Prop :=
  a.1 ≤ b.1 ∧ (a.1 = b.1 → a.2 = false ∧ b.2 = true ∧ b.1 ≠ 0x100000000)

def Slack (m1 m2 : BMem) : Prop := slack (m1.base, isAlloc m1) (m2.base, isAlloc m2)

/-- A map that `fix_memory_map` can put in order. -/
structure Ready (l : List BMem) : Prop where
  first : ∃ m rest, l = m :: rest ∧ m.base = 0 ∧ isAlloc m = false ∧ ∀ m' ∈ rest, 0 < m'.base
  slack : l.Pairwise Slack
  valid : ∀ m ∈ l, validEntry m = true
  lt_top : ∀ m ∈ l, m.base < addrSpace
  length_le : l.length ≤ 2040

/-- What every call keeps. -/
structure MapInv (map : List BMem) : Prop where
  covers : Covers map
  first : ∀ m ∈ map.head?, isAlloc m = false
  valid : ∀ m ∈ map, validEntry m = true
  length_le : map.length ≤ 2040

/-- What `fix_memory_map` does. -/
structure Fixed (l l' : List BMem) : Prop where
  inv : MapInv l'
  merged : Merged l'
  kindAt : ∀ x, kindAt l' x = kindAt l x
  underAt : ∀ x, underAt l' x = underAt l x
  allocs : allocs l' = allocs l

theorem MapInv.sorted {map : List BMem} (h : MapInv map) : Sorted BMem.base map :=
  h.covers.strict.imp le_of_lt

theorem renumber_fixable (h : (m :: l).Pairwise Slack) (hm : isAlloc m = false)
    (hl : l.length ≤ 0xFFFF) :
    (m :: renumber 0 l).Pairwise Fixable := by
  have hren : List.Forall₂ Renumbered (m :: l) (m :: renumber 0 l) :=
    List.Forall₂.cons (.refl m) (renumber_forall l 0 (by omega))
  have hslack : (m :: renumber 0 l).Pairwise Slack := by
    have hmap := map_of_renumbered (f := fun m => (m.base, isAlloc m))
      (fun m m' h => by rw [h.base, h.alloc]) hren
    have hpairs : ((m :: l).map fun m => (m.base, isAlloc m)).Pairwise slack := pairwise_map.mpr h
    rw [← hmap] at hpairs
    have hres := pairwise_map.mp hpairs
    exact hres
  have htypes : (m :: renumber 0 l).Pairwise fun m m' => isAlloc m' = true → m.type ≠ m'.type :=
    List.Pairwise.cons (fun m' _ halloc => type_ne_of_alloc hm halloc) (renumber_types l 0)
  exact (hslack.and htypes).imp fun h => ⟨h.1.1, h.1.2, h.2⟩

theorem fix_segAt {f : BMem → β} (hsame : ∀ m1 m2, sameArea m1 m2 = true → f m1 = f m2)
    (hren : ∀ m m', Renumbered m m' → f m' = f m) (h : (m :: l).Pairwise Slack)
    (hm : isAlloc m = false) (hl : l.length ≤ 0xFFFF) (x : Nat) :
    (segAt BMem.base (fixMemoryMap (m :: l)) x).map f = (segAt BMem.base (m :: l) x).map f := by
  have hforall : List.Forall₂ Renumbered (m :: l) (m :: renumber 0 l) :=
    List.Forall₂.cons (.refl m) (renumber_forall l 0 (by omega))
  refine ((mergeAreas_merging _ m (renumber_fixable h hm hl)).map_segAt hsame x).trans ?_
  refine segAt_congr (map_of_renumbered (fun m m' h => ?_) hforall) x
  rw [h.base, hren m m' h]

theorem fixMemoryMap_spec (h : Ready l) : Fixed l (fixMemoryMap l) := by
  obtain ⟨m, rest, rfl, hbase, hm, hpos⟩ := h.first
  have hlen : rest.length ≤ 0xFFFF := by
    have hlen := h.length_le
    rw [length_cons] at hlen
    omega
  have hforall : List.Forall₂ Renumbered (m :: rest) (m :: renumber 0 rest) :=
    List.Forall₂.cons (.refl m) (renumber_forall rest 0 (by omega))
  have hmerge := mergeAreas_merging _ m (renumber_fixable h.slack hm hlen)
  -- what holds of the bases and flags of all entries still holds
  have hall : ∀ p : Nat × Nat → Prop, (∀ m' ∈ m :: rest, p (m'.base, m'.flags)) →
      ∀ m' ∈ fixMemoryMap (m :: rest), p (m'.base, m'.flags) := by
    intro p hp m' hm'
    have hmem := hmerge.sub m' hm'
    have hmap := map_of_renumbered (f := fun m => (m.base, m.flags))
      (fun m m' h => by rw [h.base, h.flags]) hforall
    have hin : (m'.base, m'.flags) ∈ (m :: renumber 0 rest).map fun m => (m.base, m.flags) :=
      mem_map.mpr ⟨m', hmem, rfl⟩
    rw [hmap] at hin
    obtain ⟨m'', hm'', heq⟩ := mem_map.mp hin
    rw [← heq]
    exact hp m'' hm''
  obtain ⟨m', tail, htail, hb', hkeep⟩ := hmerge.head
  have hfirst : m' = m := by
    rcases hkeep with hk | ⟨-, hmem⟩
    · exact hk
    have hbases : (renumber 0 rest).map BMem.base = rest.map BMem.base :=
      map_of_renumbered (fun m m' h => h.base) (renumber_forall rest 0 (by omega))
    have hin : m'.base ∈ rest.map BMem.base := hbases ▸ mem_map.mpr ⟨m', hmem, rfl⟩
    obtain ⟨m'', hm'', heq⟩ := mem_map.mp hin
    have hlt := hpos m'' hm''
    omega
  rw [hfirst] at htail
  refine ⟨⟨⟨⟨m, tail, htail, hbase⟩, hmerge.strict,
    hall (fun p => p.1 < addrSpace) h.lt_top⟩, fun m'' hm'' => ?_,
    hall (fun p => p.2.testBit 0 = true) h.valid, ?_⟩, hmerge.merged, ?_, ?_, ?_⟩
  · have hhead : m ∈ (fixMemoryMap (m :: rest)).head? := by
      rw [show fixMemoryMap (m :: rest) = m :: tail from htail]
      exact rfl
    rwa [mem_unique hm'' hhead]
  · have hle := hmerge.length_le
    have hsame := List.Forall₂.length_eq hforall
    rw [length_cons, length_cons] at hsame
    have hlen := h.length_le
    rw [length_cons] at hlen
    show (mergeAreas m (renumber 0 rest)).length ≤ 2040
    omega
  · exact fix_segAt (fun _ _ => kind_of_sameArea) (fun _ _ => Renumbered.kind_eq) h.slack hm hlen
  · refine fix_segAt (fun m1 m2 hs => ?_) (fun m1 m2 hr => ?_) h.slack hm hlen
    · rw [under_eq, under_eq, kind_of_sameArea hs, isAlloc_congr (sameArea_iff.mp hs).1]
    · rw [under_eq, under_eq, hr.kind_eq, hr.alloc]
  · refine hmerge.allocs_eq.trans (blocks_congr (map_of_renumbered ?_ hforall))
    exact fun m1 m2 hr => by rw [hr.base, hr.alloc]

/-! ## Allocating -/

variable {s s' : MemState} {mapAddr alignment size addr ptr : Nat}

/-- What an allocation does: it takes the addresses from `addr` up to `e`,
`size` of them and those that the alignment leaves over. -/
structure Given (s s' : MemState) (alignment size addr e : Nat) : Prop where
  pos : 0 < addr
  size_le : addr + size ≤ e
  left_over : e - (addr + size) = remainderOf e size alignment
  le_map : e ≤ s.mapAddr
  taken : ∀ x, addr ≤ x → x < e → ∃ flags other,
    kindAt s.map x = some ⟨bMemNormal, flags, other⟩ ∧ underAt s.map x = kindAt s.map x ∧
      flags.testBit 16 = false ∧ kindAt s'.map x = some ⟨bMemInitAllocMin, flags, other⟩
  frame : ∀ x, ¬ (addr ≤ x ∧ x < e) → kindAt s'.map x = kindAt s.map x
  allocs : (allocs s'.map).Perm ((addr, e) :: allocs s.map)
  merged : Merged s'.map

/-- The map with a new area between two entries. -/
def insertAt (s : MemState) (l1 : List BMem) (m1 m2 : BMem) (l2 : List BMem) (addr : Nat) :
    MemState :=
  let new := { m1 with type := bMemInitAllocMin, base := addr }
  { s with map := fixMemoryMap (l1 ++ m1 :: new :: m2 :: l2) }

variable {map : List BMem}

theorem findArea_some {k : Nat} : ∀ i, findArea map mapAddr alignment size i = some k →
      ∃ l1 m1 m2 l2, map = l1 ++ m1 :: m2 :: l2 ∧ k = l1.length + 1 ∧ 0 < l1.length ∧
        fitsArea mapAddr alignment size m1 m2 = true := by
  intro i
  induction i with
  | zero =>
    intro h
    cases h
  | succ i ih =>
    intro h
    cases i with
    | zero => cases h
    | succ i =>
      rw [findArea] at h
      split at h
      · rename_i m1 m2 hm1 hm2
        split at h
        · rename_i hfits
          obtain rfl : i + 2 = k := some.inj h
          obtain ⟨hlt1, rfl⟩ := List.getElem?_eq_some_iff.mp hm1
          obtain ⟨hlt2, rfl⟩ := List.getElem?_eq_some_iff.mp hm2
          refine ⟨map.take (i + 1), _, _, map.drop (i + 3), ?_, ?_, ?_, hfits⟩
          · simp
          all_goals
            rw [length_take]
            omega
        · exact ih h
      · cases h

theorem memoryAlignedAlloc_cases (hs : s.map.Pairwise fun m1 m2 => m1.base < m2.base)
    (hd : s.disabled = false) :
    memoryAlignedAlloc s alignment size = (none, s) ∨
      ∃ l1 m1 m2 l2 addr, s.map = l1 ++ m1 :: m2 :: l2 ∧
        m1.type = bMemNormal ∧ m1.flags.testBit 16 = false ∧
        m2.base < 0x100000000 ∧ m2.base ≤ s.mapAddr ∧ s.map.length < 2040 ∧
        m1.base ≤ addr ∧ 0 < addr ∧ 0 < size ∧
        addr + size + remainderOf m2.base size alignment = m2.base ∧
        memoryAlignedAlloc s alignment size = (some addr, insertAt s l1 m1 m2 l2 addr) := by
  unfold memoryAlignedAlloc
  split
  · exact .inl rfl
  cases hfind : findArea s.map s.mapAddr alignment size (s.map.length - 1) with
  | none => exact .inl rfl
  | some k =>
    obtain ⟨l1, m1, m2, l2, hmap, rfl, -, hfits⟩ := findArea_some _ hfind
    have hlt : m1.base < m2.base := by
      rw [hmap] at hs
      exact rel_of_pairwise_cons (pairwise_append.mp hs).2.1 mem_cons_self
    unfold fitsArea at hfits
    simp only [Bool.and_eq_true, decide_eq_true_eq, Bool.not_eq_true'] at hfits
    obtain ⟨⟨⟨hhigh, hlow, htype, hsize⟩, hflag⟩, hroom⟩ := hfits
    have hm2 : m2.base < 0x100000000 ∧ baseLow m2 = m2.base := by
      unfold baseHigh at hhigh
      unfold baseLow
      omega
    have hm1 : baseLow m1 = m1.base := by
      unfold baseLow
      omega
    have hget1 : s.map[l1.length + 1 - 1]? = some m1 := by
      rw [hmap, Nat.add_sub_cancel]
      simp
    have hget2 : s.map[l1.length + 1]? = some m2 := by
      rw [hmap]
      simp
    have htake : s.map.take (l1.length + 1) = l1 ++ [m1] := by
      rw [hmap, take_length_add_append]
      rfl
    have hdrop : s.map.drop (l1.length + 1) = m2 :: l2 := by
      rw [hmap, drop_length_add_append]
      rfl
    rw [hm1, hm2.2] at hroom
    rw [hm2.2] at hlow
    simp only [hget1, hget2, hm2.2]
    split
    · exact .inl rfl
    split
    · exact .inl rfl
    have halloc : ∀ a b, allocType false a b = bMemInitAllocMin := fun _ _ => rfl
    refine .inr ⟨l1, m1, m2, l2, m2.base - size - remainderOf m2.base size alignment, hmap,
      htype, hflag, hm2.1, hlow, by omega, ?_, ?_, by omega, ?_, ?_⟩
    · omega
    · omega
    · omega
    · simp only [insertArea, insertAt, hd, halloc, htake, hdrop, append_assoc,
        cons_append, nil_append]

theorem ready_insert {l1 l2 : List BMem} {m1 m2 new : BMem} (h : MapInv (l1 ++ m1 :: m2 :: l2))
    (hm1 : isAlloc m1 = false) (hnew : isAlloc new = true) (hflags : new.flags = m1.flags)
    (hpos : 0 < new.base) (hle : m1.base ≤ new.base) (hlt : new.base < m2.base)
    (hlow : m2.base < 0x100000000) (hlen : (l1 ++ m1 :: m2 :: l2).length < 2040) :
    Ready (l1 ++ m1 :: new :: m2 :: l2) := by
  have hstrict := h.covers.strict
  obtain ⟨hs1, hs2, hs12⟩ := pairwise_append.mp hstrict
  have hlt_slack : ∀ a b : BMem, a.base < b.base → Slack a b :=
    fun a b hab => ⟨le_of_lt hab, fun heq => absurd heq (ne_of_lt hab)⟩
  have hm12 : ∀ m ∈ m2 :: l2, m2.base ≤ m.base := by
    intro m hm
    rcases mem_cons.mp hm with rfl | hm
    · omega
    · exact le_of_lt (rel_of_pairwise_cons hs2.of_cons hm)
  have hmem : ∀ m ∈ l1 ++ m1 :: new :: m2 :: l2, m ∈ l1 ++ m1 :: m2 :: l2 ∨ m = new := by
    intro m hm
    simp only [mem_append, mem_cons] at hm ⊢
    tauto
  refine ⟨?_, ?_, ?_, ?_, ?_⟩
  · obtain ⟨m, rest, hmap, hbase⟩ := h.covers.first
    have hfirst : isAlloc m = false := by
      refine h.first m ?_
      rw [hmap]
      exact rfl
    have hrest : ∀ m' ∈ rest, 0 < m'.base := by
      intro m' hm'
      rw [hmap] at hstrict
      have hlt := rel_of_pairwise_cons hstrict hm'
      omega
    cases l1 with
    | nil =>
      obtain ⟨rfl, hrest'⟩ := cons_eq_cons.mp hmap
      refine ⟨m1, new :: m2 :: l2, rfl, hbase, hfirst, fun m' hm' => ?_⟩
      rcases mem_cons.mp hm' with rfl | hm'
      · exact hpos
      · exact hrest m' (hrest' ▸ hm')
    | cons m0 l1 =>
      obtain ⟨rfl, hrest'⟩ := cons_eq_cons.mp hmap
      refine ⟨m0, l1 ++ m1 :: new :: m2 :: l2, rfl, hbase, hfirst, fun m' hm' => ?_⟩
      have hin : m' ∈ l1 ++ m1 :: m2 :: l2 ∨ m' = new := by
        simp only [mem_append, mem_cons] at hm' ⊢
        tauto
      rcases hin with hin | rfl
      · exact hrest m' (hrest' ▸ hin)
      · exact hpos
  · refine pairwise_append.mpr ⟨hs1.imp (hlt_slack _ _), ?_, fun a ha b hb => ?_⟩
    · refine List.Pairwise.cons (fun m hm => ?_) (List.Pairwise.cons (fun m hm => ?_)
        (hs2.of_cons.imp (hlt_slack _ _)))
      · rcases mem_cons.mp hm with rfl | hm
        · refine ⟨hle, fun _ => ⟨hm1, hnew, ?_⟩⟩
          omega
        · exact hlt_slack _ _ (rel_of_pairwise_cons hs2 hm)
      · exact hlt_slack _ _ (lt_of_lt_of_le hlt (hm12 m hm))
    · rcases mem_cons.mp hb with rfl | hb
      · exact hlt_slack _ _ (hs12 a ha b mem_cons_self)
      · rcases mem_cons.mp hb with rfl | hb
        · exact hlt_slack _ _ (lt_of_lt_of_le (hs12 a ha m1 mem_cons_self) hle)
        · exact hlt_slack _ _ (hs12 a ha b (.tail _ hb))
  · intro m hm
    rcases hmem m hm with hm | rfl
    · exact h.valid m hm
    · unfold validEntry
      rw [hflags]
      exact h.valid m1 (by simp)
  · intro m hm
    rcases hmem m hm with hm | rfl
    · exact h.covers.lt_top m hm
    · unfold addrSpace
      omega
  · simp only [length_append, length_cons] at hlen ⊢
    omega

theorem isAlloc_normal {m : BMem} (h : m.type = bMemNormal) : isAlloc m = false := by
  refine decide_eq_false fun hm => ?_
  rw [h] at hm
  unfold bMemInitAllocMin bMemNormal at hm
  omega

theorem allocs_insert {l1 l2 : List BMem} {m1 m2 new : BMem} (hm1 : isAlloc m1 = false)
    (hnew : isAlloc new = true) :
    (allocs (l1 ++ m1 :: new :: m2 :: l2)).Perm
      ((new.base, m2.base) :: allocs (l1 ++ m1 :: m2 :: l2)) := by
  unfold allocs
  rw [blocks_append, blocks_append]
  have hcons : ∀ m l, blocks BMem.base isAlloc addrSpace (m :: l) =
      if isAlloc m then (m.base, nextBase BMem.base addrSpace l) ::
        blocks BMem.base isAlloc addrSpace l
      else blocks BMem.base isAlloc addrSpace l := fun _ _ => rfl
  rw [hcons m1, hcons new, hcons m1]
  simp only [hm1, hnew]
  exact perm_middle

theorem memoryAlignedAlloc_given (h : MapInv s.map) (hd : s.disabled = false) :
    memoryAlignedAlloc s alignment size = (none, s) ∨ ∃ addr e s',
      memoryAlignedAlloc s alignment size = (some addr, s') ∧ MapInv s'.map ∧
        Given s s' alignment size addr e ∧ (∀ x, underAt s'.map x = underAt s.map x) ∧
          s'.mapAddr = s.mapAddr ∧ s'.disabled = s.disabled := by
  rcases memoryAlignedAlloc_cases h.covers.strict hd with hnone | ⟨l1, m1, m2, l2, addr, hmap,
    htype, hflag, hlow, hle, hlen, hbase, hpos, hsize, hend, heq⟩
  · exact .inl hnone
  refine .inr ⟨addr, m2.base, _, heq, ?_⟩
  obtain ⟨new, hnew⟩ : ∃ new, new = { m1 with type := bMemInitAllocMin, base := addr } := ⟨_, rfl⟩
  have hm1 := isAlloc_normal htype
  have hnewbase : new.base = addr := by rw [hnew]
  have halloc : isAlloc new = true := by
    rw [hnew]
    rfl
  have hlt : new.base < m2.base := by omega
  rw [hmap] at h hlen
  have hfix := fixMemoryMap_spec (ready_insert h hm1 halloc (by rw [hnew]) (by omega) (by omega)
    hlt hlow hlen)
  have hs' : (insertAt s l1 m1 m2 l2 addr).map = fixMemoryMap (l1 ++ m1 :: new :: m2 :: l2) := by
    rw [hnew]
    rfl
  -- the new entry stands for the addresses from `addr` up to `m2`
  have hseg : ∀ x, segAt BMem.base (l1 ++ m1 :: new :: m2 :: l2) x =
      if new.base ≤ x ∧ x < m2.base then some new
      else segAt BMem.base (l1 ++ m1 :: m2 :: l2) x := segAt_insert h.sorted
  have hold : ∀ x, addr ≤ x → x < m2.base → segAt BMem.base (l1 ++ m1 :: m2 :: l2) x = some m1 :=
    fun x hx1 hx2 => segAt_between h.sorted (le_trans hbase hx1) hx2
  have hkind1 : kind m1 = ⟨bMemNormal, m1.flags, m1.other⟩ := by
    unfold kind
    rw [hm1, htype]
    rfl
  have hunder1 : under m1 = kind m1 := by
    rw [under_eq, hm1]
    rfl
  have hkindn : kind new = ⟨bMemInitAllocMin, m1.flags, m1.other⟩ := by
    unfold kind
    rw [halloc, hnew]
    rfl
  have hundern : under new = kind m1 := by
    rw [under_eq, halloc, hkindn, hkind1]
    rfl
  rw [hs']
  refine ⟨hfix.inv, ⟨hpos, by omega, by omega, hle, fun x hx1 hx2 => ?_, fun x hx => ?_, ?_, ?_⟩,
    fun x => ?_, rfl, rfl⟩
  · refine ⟨m1.flags, m1.other, ?_, ?_, hflag, ?_⟩
    · unfold kindAt
      rw [hmap, hold x hx1 hx2, map_some, hkind1]
    · unfold kindAt underAt
      rw [hmap, hold x hx1 hx2, map_some, map_some, hunder1]
    · rw [hs', hfix.kindAt]
      unfold kindAt
      rw [hseg, if_pos (by omega), map_some, hkindn]
  · rw [hs', hfix.kindAt, hmap]
    unfold kindAt
    rw [hseg, if_neg (by omega)]
  · rw [hs', hfix.allocs, hmap, ← hnewbase]
    exact allocs_insert hm1 halloc
  · rw [hs']
    exact hfix.merged
  rw [hfix.underAt, hmap]
  unfold underAt
  rw [hseg]
  split
  · rw [hold x (by omega) (by omega), map_some, map_some, hundern, hunder1]
  · rfl

/-! ## Freeing -/

/-- What `free` does: the area that begins at `ptr`, if there is one, is
again of the kind under it. -/
structure Freed (s s' : MemState) (ptr : Nat) : Prop where
  restored : ∀ b ∈ allocs s.map, b.1 = ptr → ∀ x, b.1 ≤ x → x < b.2 →
    kindAt s'.map x = underAt s.map x
  frame : ∀ x, x < addrSpace → (∀ b ∈ allocs s.map, b.1 = ptr → ¬ (b.1 ≤ x ∧ x < b.2)) →
    kindAt s'.map x = kindAt s.map x
  allocs : allocs s'.map = (allocs s.map).filter fun b => b.1 ≠ ptr
  merged : Merged s'.map

/-- An entry after `free`. -/
def unalloc (ptr : Nat) (m : BMem) : BMem :=
  if m.base = ptr ∧ isAlloc m then { m with type := bMemNormal } else m

theorem unalloc_base (m : BMem) : (unalloc ptr m).base = m.base := by
  unfold unalloc
  split <;> rfl

theorem unalloc_flags (m : BMem) : (unalloc ptr m).flags = m.flags := by
  unfold unalloc
  split <;> rfl

theorem unalloc_isAlloc (m : BMem) :
    isAlloc (unalloc ptr m) = (isAlloc m && decide (m.base ≠ ptr)) := by
  unfold unalloc
  split
  · rename_i h
    rw [isAlloc_normal rfl, h.1]
    simp
  rename_i h
  cases hm : isAlloc m with
  | false => rfl
  | true =>
    have hne : m.base ≠ ptr := fun hbase => h ⟨hbase, hm⟩
    simp [hne]

theorem unalloc_under (m : BMem) : under (unalloc ptr m) = under m := by
  unfold unalloc
  split
  · rename_i h
    unfold under
    rw [isAlloc_normal rfl, h.2]
    rfl
  · rfl

theorem kind_eq_under {m : BMem} (h : isAlloc m = false) : kind m = under m := by
  rw [under_eq, h]
  rfl

theorem freeArea_eq (l : List BMem) (hs : l.Pairwise fun m1 m2 => m1.base < m2.base)
    (hv : ∀ m ∈ l, validEntry m = true) : freeArea ptr l = l.map (unalloc ptr) := by
  induction l with
  | nil => rfl
  | cons m l ih =>
    have ih := ih hs.of_cons fun m' hm' => hv m' (.tail _ hm')
    rw [freeArea, if_neg (by simp [hv m mem_cons_self]), map_cons]
    split
    · rename_i h
      have htail : l.map (unalloc ptr) = l := by
        refine (map_congr_left fun m' hm' => ?_).trans (map_id l)
        have hlt := rel_of_pairwise_cons hs hm'
        unfold unalloc
        rw [if_neg fun hp => by omega]
        rfl
      rw [htail]
      unfold unalloc
      rw [if_pos h]
    · rename_i h
      congr 1
      unfold unalloc
      rw [if_neg h]

theorem ready_unalloc (ptr : Nat) (h : MapInv map) : Ready (map.map (unalloc ptr)) := by
  have hmem : ∀ m ∈ map.map (unalloc ptr), ∃ m' ∈ map, m.base = m'.base ∧ m.flags = m'.flags := by
    intro m hm
    obtain ⟨m', hm', rfl⟩ := mem_map.mp hm
    exact ⟨m', hm', unalloc_base m', unalloc_flags m'⟩
  refine ⟨?_, ?_, ?_, ?_, ?_⟩
  · obtain ⟨m, rest, rfl, hbase⟩ := h.covers.first
    have hm := h.first m rfl
    refine ⟨unalloc ptr m, rest.map (unalloc ptr), rfl, (unalloc_base m).trans hbase, ?_, ?_⟩
    · rw [unalloc_isAlloc, hm]
      rfl
    intro m' hm'
    obtain ⟨m'', hm'', rfl⟩ := mem_map.mp hm'
    have hlt := rel_of_pairwise_cons h.covers.strict hm''
    rw [unalloc_base]
    omega
  · refine pairwise_map.mpr (h.covers.strict.imp fun {m m'} hlt => ?_)
    have hlt' : (unalloc ptr m).base < (unalloc ptr m').base := by
      rwa [unalloc_base, unalloc_base]
    exact ⟨le_of_lt hlt', fun heq => absurd heq (ne_of_lt hlt')⟩
  · intro m hm
    obtain ⟨m', hm', -, hflags⟩ := hmem m hm
    unfold validEntry
    rw [hflags]
    exact h.valid m' hm'
  · intro m hm
    obtain ⟨m', hm', hbase, -⟩ := hmem m hm
    rw [hbase]
    exact h.covers.lt_top m' hm'
  · rw [length_map]
    exact h.length_le

theorem mem_freed (h : MapInv map) {x : Nat} (hx : x < addrSpace) :
    (∃ b ∈ allocs map, b.1 = ptr ∧ b.1 ≤ x ∧ x < b.2) ↔
      ∃ m, segAt BMem.base map x = some m ∧ m.base = ptr ∧ isAlloc m = true := by
  have hfilter : blocks BMem.base (fun m => isAlloc m && decide (m.base = ptr)) addrSpace map =
      (allocs map).filter fun b => decide (b.1 = ptr) :=
    blocks_filter (fun base => decide (base = ptr)) map
  have hmem := mem_blocks (p := fun m => isAlloc m && decide (m.base = ptr)) h.sorted hx
  rw [hfilter] at hmem
  simp only [mem_filter, decide_eq_true_eq, Bool.and_eq_true, and_assoc] at hmem
  rw [hmem]
  simp only [and_comm]

theorem free_freed (h : MapInv s.map) (hd : s.disabled = false) (hptr : ptr ≠ 0) :
    MapInv (free s ptr).map ∧ Freed s (free s ptr) ptr ∧
      (∀ x, underAt (free s ptr).map x = underAt s.map x) ∧
        (free s ptr).mapAddr = s.mapAddr ∧ (free s ptr).disabled = s.disabled := by
  obtain ⟨m, rest, hmap, hbase⟩ := h.covers.first
  have hm : isAlloc m = false := by
    refine h.first m ?_
    rw [hmap]
    exact rfl
  have hfree : free s ptr = { s with map := fixMemoryMap (s.map.map (unalloc ptr)) } := by
    have hstrict := h.covers.strict
    have hvalid := h.valid
    rw [hmap] at hstrict hvalid
    have hhead : unalloc ptr m = m := by
      unfold unalloc
      rw [if_neg fun hp => by rw [hm] at hp; omega]
    unfold free
    rw [if_neg (by simp [hptr, hd])]
    simp only [hmap]
    simp [freeArea_eq rest hstrict.of_cons fun m' hm' => hvalid m' (.tail _ hm'), hhead]
  have hfix := fixMemoryMap_spec (ready_unalloc ptr h)
  have hseg : ∀ x, segAt BMem.base (s.map.map (unalloc ptr)) x =
      (segAt BMem.base s.map x).map (unalloc ptr) := segAt_map unalloc_base s.map
  have hallocs : allocs (s.map.map (unalloc ptr)) = (allocs s.map).filter fun b => b.1 ≠ ptr := by
    unfold allocs
    rw [blocks_map unalloc_base]
    simp only [unalloc_isAlloc]
    exact blocks_filter (fun base => decide (base ≠ ptr)) s.map
  rw [hfree]
  refine ⟨hfix.inv, ⟨fun b hb hbptr x hx1 hx2 => ?_, fun x hx hout => ?_, ?_, hfix.merged⟩,
    fun x => ?_, rfl, rfl⟩
  · have hxtop : x < addrSpace :=
      lt_of_lt_of_le hx2 (block_lt h.covers.strict h.covers.lt_top b hb).2
    obtain ⟨m', hm', hbase', halloc⟩ := (mem_freed h hxtop).mp ⟨b, hb, hbptr, hx1, hx2⟩
    have hfreed : isAlloc (unalloc ptr m') = false := by
      rw [unalloc_isAlloc, hbase']
      simp
    rw [hfix.kindAt]
    unfold kindAt underAt
    rw [hseg, hm', map_some, map_some, map_some, kind_eq_under hfreed, unalloc_under]
  · rw [hfix.kindAt]
    unfold kindAt
    rw [hseg]
    cases hm' : segAt BMem.base s.map x with
    | none => rfl
    | some m' =>
      have hkeep : unalloc ptr m' = m' := by
        unfold unalloc
        rw [if_neg]
        rintro ⟨hbase', halloc⟩
        obtain ⟨b, hb, hbptr, hbx⟩ := (mem_freed h hx).mpr ⟨m', hm', hbase', halloc⟩
        exact hout b hb hbptr hbx
      rw [map_some, hkeep]
  · exact hfix.allocs.trans hallocs
  rw [hfix.underAt]
  unfold underAt
  rw [hseg, Option.map_map]
  congr 1
  exact funext unalloc_under

theorem strict_of_checkAreas (map : List BMem) (h : checkAreas mapAddr map = true) :
    (map.Pairwise fun m1 m2 => m1.base < m2.base) ∧ ∀ m ∈ map, m.base < addrSpace := by
  induction map with
  | nil => simp
  | cons m rest ih =>
    simp only [checkAreas, Bool.and_eq_true, decide_eq_true_eq] at h
    obtain ⟨⟨hlt, -⟩, hrest⟩ := h
    obtain ⟨hstrict, htop⟩ := ih hrest
    cases rest with
    | nil =>
      refine ⟨pairwise_singleton _ _, fun m' hm' => ?_⟩
      rw [mem_singleton.mp hm']
      exact hlt
    | cons m2 rest =>
      have hm2 := htop m2 mem_cons_self
      refine ⟨List.Pairwise.cons (fun m' hm' => ?_) hstrict, fun m' hm' => ?_⟩
      · rcases mem_cons.mp hm' with rfl | hm'
        · exact hlt
        · exact lt_trans hlt (rel_of_pairwise_cons hstrict hm')
      · rcases mem_cons.mp hm' with rfl | hm'
        · exact lt_trans hlt hm2
        · exact htop m' hm'

theorem own_of_checkAreas (map : List BMem) (h : checkAreas mapAddr map = true)
    (hany : ∃ m ∈ map, m.type = bMemInitExecutable) :
    ∃ l1 m l2, map = l1 ++ m :: l2 ∧ m.type = bMemInitExecutable ∧ mapAddr = m.base + 0x10000 ∧
      nextBase BMem.base addrSpace l2 - m.base = 0x20000 := by
  induction map with
  | nil =>
    obtain ⟨m, hm, -⟩ := hany
    cases hm
  | cons m rest ih =>
    simp only [checkAreas, Bool.and_eq_true] at h
    obtain ⟨⟨-, hm⟩, hrest⟩ := h
    by_cases hinit : m.type = bMemInitExecutable
    · have hboot : ¬ (m.type = bMemBootLoader ∨ m.type = bMemUefiSyscalls) := by
        rw [hinit]
        decide
      rw [if_neg hboot, if_pos hinit, decide_eq_true_eq] at hm
      exact ⟨[], m, rest, rfl, hinit, hm.1, hm.2.2⟩
    obtain ⟨m', hm', hinit'⟩ := hany
    have hmem : m' ∈ rest := by
      rcases mem_cons.mp hm' with rfl | hmem
      · omega
      · exact hmem
    obtain ⟨l1, m'', l2, rfl, hown⟩ := ih hrest ⟨m', hmem, hinit'⟩
    exact ⟨m :: l1, m'', l2, rfl, hown⟩

/-- A map that `memory_init` takes, with valid entries, and no allocated
area at the first address. -/
structure InitialMap (mapAddr : Nat) (map : List BMem) (s : MemState) : Prop where
  init : memoryInit mapAddr map = some s
  valid : ∀ m ∈ map, validEntry m = true
  first : ∀ m ∈ map.head?, isAlloc m = false

section

variable (h : InitialMap mapAddr map s)
include h

theorem InitialMap.check :
    s = ⟨map, mapAddr, false⟩ ∧ checkAreas mapAddr map = true ∧ allTypes map = true ∧
      map.length ≤ 2048 - 512 ∧ ∃ m rest, map = m :: rest ∧ m.base = 0 := by
  have hinit := h.init
  unfold memoryInit at hinit
  split at hinit
  · cases hinit
  rename_i m rest
  split at hinit
  · cases hinit
  rename_i hbase
  split at hinit
  · cases hinit
  rename_i hlen
  split at hinit
  · rename_i hcheck
    rw [Bool.and_eq_true] at hcheck
    exact ⟨(some.inj hinit).symm, hcheck.1, hcheck.2, not_lt.mp hlen, m, rest, rfl,
      not_not.mp hbase⟩
  · cases hinit

theorem InitialMap.inv : MapInv map := by
  obtain ⟨-, hcheck, -, hlen, hfirst⟩ := h.check
  obtain ⟨hstrict, htop⟩ := strict_of_checkAreas map hcheck
  exact ⟨⟨hfirst, hstrict, htop⟩, h.first, h.valid, by omega⟩

theorem InitialMap.own {x : Nat} (hge : mapAddr - 0x10000 ≤ x) (hlt : x < mapAddr + 0x10000) :
    ∃ flags other, underAt map x = some ⟨bMemInitExecutable, flags, other⟩ := by
  obtain ⟨-, hcheck, htypes, -, -⟩ := h.check
  have hany : ∃ m ∈ map, m.type = bMemInitExecutable := by
    unfold allTypes at htypes
    simp only [Bool.and_eq_true, List.any_eq_true, decide_eq_true_eq] at htypes
    exact htypes.1.2
  obtain ⟨l1, m, l2, rfl, htype, haddr, hsize⟩ := own_of_checkAreas map hcheck hany
  have hsorted := h.inv.sorted
  have hseg : segAt BMem.base (l1 ++ m :: l2) x = some m := by
    cases l2 with
    | nil => exact segAt_last (by omega)
    | cons m2 l2 =>
      have hnext : m2.base - m.base = 0x20000 := hsize
      exact segAt_between hsorted (by omega) (by omega)
  have halloc : isAlloc m = false := by
    unfold isAlloc
    rw [htype]
    rfl
  refine ⟨m.flags, m.other, ?_⟩
  unfold underAt
  rw [hseg, map_some]
  unfold under
  rw [halloc, htype]
  rfl

end

/-! ## Runs -/

inductive MemCall where
  | alignedAlloc (alignment size : Nat)
  | malloc (size : Nat)
  | calloc (nmemb size : Nat)
  | free (ptr : Nat)

def MemState.exec (s : MemState) : MemCall → MemState
  | .alignedAlloc alignment size => (Boot.alignedAlloc s alignment size).2
  | .malloc size => (Boot.malloc s size).2
  | .calloc nmemb size => (Boot.calloc s nmemb size).2
  | .free ptr => Boot.free s ptr

def memStep (s : MemState) (c : MemCall) (s' : MemState) : Prop := s' = s.exec c

/-- The invariant of a run that began with a map. -/
structure RunInv (mapAddr : Nat) (map : List BMem) (s : MemState) : Prop where
  inv : MapInv s.map
  underAt : ∀ x, underAt s.map x = underAt map x
  mapAddr : s.mapAddr = mapAddr
  enabled : s.disabled = false

theorem alignedAlloc_given (h : MapInv s.map) (hd : s.disabled = false) (alignment size : Nat) :
    alignedAlloc s alignment size = (none, s) ∨ ∃ addr e s',
      alignedAlloc s alignment size = (some addr, s') ∧ MapInv s'.map ∧
        Given s s' alignment size addr e ∧ (∀ x, underAt s'.map x = underAt s.map x) ∧
          s'.mapAddr = s.mapAddr ∧ s'.disabled = s.disabled := by
  unfold alignedAlloc
  rw [if_neg (by simp [hd])]
  exact memoryAlignedAlloc_given h hd

theorem alignedAlloc_inv (h : RunInv mapAddr map s) (alignment size : Nat) :
    RunInv mapAddr map (alignedAlloc s alignment size).2 := by
  rcases alignedAlloc_given h.inv h.enabled alignment size with
    hnone | ⟨addr, e, s', heq, hinv, -, hunder, haddr, hd⟩
  · rwa [hnone]
  · rw [heq]
    exact ⟨hinv, fun x => (hunder x).trans (h.underAt x), haddr.trans h.mapAddr,
      hd.trans h.enabled⟩

theorem exec_inv (c : MemCall) (h : RunInv mapAddr map s) :
    RunInv mapAddr map (s.exec c) := by
  cases c with
  | alignedAlloc alignment size => exact alignedAlloc_inv h alignment size
  | malloc size => exact alignedAlloc_inv h 16 size
  | calloc nmemb size =>
    show RunInv mapAddr map (calloc s nmemb size).2
    unfold calloc
    simp only
    split
    · exact h
    · exact alignedAlloc_inv h 16 _
  | free ptr =>
    show RunInv mapAddr map (free s ptr)
    by_cases hptr : ptr = 0
    · have hsame : free s ptr = s := by
        unfold free
        rw [if_pos (.inl hptr)]
      rwa [hsame]
    · obtain ⟨hinv, -, hunder, haddr, hd⟩ := free_freed h.inv h.enabled hptr
      exact ⟨hinv, fun x => (hunder x).trans (h.underAt x), haddr.trans h.mapAddr,
        hd.trans h.enabled⟩

theorem inv_of_memRun {s0 : MemState} {cs : List MemCall} (hinit : InitialMap mapAddr map s0)
    (hrun : Run memStep s0 cs s) :
    RunInv mapAddr map s := by
  refine hrun.invariant (fun s c s' h hstep => ?_) ?_
  · rw [hstep]
    exact exec_inv c h
  · rw [hinit.check.1]
    exact ⟨hinit.inv, fun _ => rfl, rfl, rfl⟩

theorem allocs_avoid_map {s0 : MemState} (hinit : InitialMap mapAddr map s0)
    (h : RunInv mapAddr map s) : ∀ b ∈ allocs s.map,
      b.2 ≤ mapAddr - 0x10000 ∨ mapAddr + 0x10000 ≤ b.1 := by
  intro b hb
  obtain ⟨hlt, htop⟩ := block_lt h.inv.covers.strict h.inv.covers.lt_top b hb
  by_contra hmeet
  obtain ⟨x, hx⟩ : ∃ x, x = max b.1 (mapAddr - 0x10000) := ⟨_, rfl⟩
  obtain ⟨m, hm, halloc⟩ := (mem_blocks h.inv.sorted (x := x) (by omega)).mp
    ⟨b, hb, by omega, by omega⟩
  obtain ⟨flags, other, hown⟩ := hinit.own (x := x) (by omega) (by omega)
  rw [← h.underAt] at hown
  unfold underAt under at hown
  rw [hm, map_some, halloc] at hown
  cases hown

/-- The memory map over whole runs. -/
theorem memory_of_run {mapAddr : Nat} {map : List BMem} {s0 s : MemState} {cs : List MemCall}
    (hinit : InitialMap mapAddr map s0) (hrun : Run memStep s0 cs s) :
    Covers s.map ∧ (∀ x, underAt s.map x = underAt map x) ∧
      ((allocs s.map).Pairwise fun a b => a.2 ≤ b.1) ∧
      (∀ b ∈ allocs s.map, b.1 < b.2 ∧ (b.2 ≤ mapAddr - 0x10000 ∨ mapAddr + 0x10000 ≤ b.1)) ∧
      (∀ alignment size, alignedAlloc s alignment size = (none, s) ∨ ∃ addr e s',
        alignedAlloc s alignment size = (some addr, s') ∧ Given s s' alignment size addr e) ∧
      (∀ ptr, ptr ≠ 0 → Freed s (free s ptr) ptr) ∧ free s 0 = s := by
  have h := inv_of_memRun hinit hrun
  refine ⟨h.inv.covers, h.underAt,
    blocks_disjoint h.inv.sorted fun m hm => le_of_lt (h.inv.covers.lt_top m hm),
    fun b hb => ⟨?_, allocs_avoid_map hinit h b hb⟩, fun alignment size => ?_, fun ptr hptr => ?_,
    rfl⟩
  · exact (block_lt h.inv.covers.strict h.inv.covers.lt_top b hb).1
  · rcases alignedAlloc_given h.inv h.enabled alignment size with
      hnone | ⟨addr, e, s', heq, -, hgiven, -⟩
    · exact .inl hnone
    · exact .inr ⟨addr, e, s', heq, hgiven⟩
  · exact (free_freed h.inv h.enabled hptr).2.1

/-- A small map: the init module lies right above free memory. -/
def lowMap : List BMem :=
  [⟨bMemNotReported, 1, 0, 0⟩, ⟨bMemNormal, 1, 0x100000, 0⟩, ⟨bMemInitExecutable, 1, 0x800000, 0⟩,
    ⟨bMemBootLoader, 1, 0x820000, 0⟩, ⟨bMemNotReported, 1, 0x100000000, 0⟩]

theorem lowMap_initial : InitialMap 0x810000 lowMap ⟨lowMap, 0x810000, false⟩ :=
  ⟨by decide, by decide, by decide⟩

theorem memory_of_run_lowMap :
    let s := (MemState.mk lowMap 0x810000 false).exec (.malloc 100)
    let s' := s.exec (.free 0x7FFF90)
    allocs s.map = [(0x7FFF90, 0x800000)] ∧ Covers s'.map ∧
      ∀ x, underAt s'.map x = underAt lowMap x :=
  have h := memory_of_run lowMap_initial (.snoc (.single rfl) rfl)
  ⟨by decide, h.1, h.2.1⟩

def typeAt (map : List BMem) (x : Nat) : Option Nat := (segAt BMem.base map x).map BMem.type

/-- An allocation changes more than `size` bytes: those that the alignment
leaves over, and the numbers of the other areas. -/
theorem types_change_elsewhere :
    (¬ ∀ (map : List BMem) (mapAddr size addr : Nat) (s0 s s' : MemState) (cs : List MemCall),
      InitialMap mapAddr map s0 → Run memStep s0 cs s → malloc s size = (some addr, s') →
        ∀ x, ¬ (addr ≤ x ∧ x < addr + size) → typeAt s'.map x = typeAt s.map x) ∧
      let s := (malloc ⟨lowMap, 0x810000, false⟩ 16).2
      (malloc s 16).1 = some 0x7FFFE0 ∧ typeAt s.map 0x7FFFF0 = some bMemInitAllocMin ∧
        typeAt (malloc s 16).2.map 0x7FFFF0 = some (bMemInitAllocMin + 1) := by
  refine ⟨fun h => ?_, by decide⟩
  have hfirst : (malloc ⟨lowMap, 0x810000, false⟩ 100).1 = some 0x7FFF90 := by decide
  have hsame := h lowMap 0x810000 100 0x7FFF90 _ _ _ [] lowMap_initial (.nil _)
    (Prod.ext hfirst rfl) 0x7FFFFF (by decide)
  have hdiff : typeAt (malloc ⟨lowMap, 0x810000, false⟩ 100).2.map 0x7FFFFF ≠
      typeAt lowMap 0x7FFFFF := by decide
  exact hdiff hsame

end Dancy.Boot
