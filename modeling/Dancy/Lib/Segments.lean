import Mathlib.Data.List.Basic

/-!
# Segments of a line

A sorted list of objects with a base cuts the numbers into segments: each
object stands for the numbers from its base up to the base of the next one,
the last object for those up to `top`. `segAt` is the object of a number,
`blocks` are the segments of the objects with a property.
-/

namespace Dancy.Lib.Segments

open List Option

universe u v

variable {α : Type u} {β : Type v} {base : α → Nat} {p : α → Bool} {top x : Nat} {l l1 l2 : List α} {m : α}

/-- The last object whose base is not above `x`. -/
def segAt (base : α → Nat) : List α → Nat → Option α
  | [], _ => none
  | m :: rest, x => (segAt base rest x).or (if base m ≤ x then some m else none)

def nextBase (base : α → Nat) (top : Nat) : List α → Nat
  | [] => top
  | m :: _ => base m

/-- The segments, as pairs of their ends, of the objects with a property. -/
def blocks (base : α → Nat) (p : α → Bool) (top : Nat) : List α → List (Nat × Nat)
  | [] => []
  | m :: rest =>
    if p m then (base m, nextBase base top rest) :: blocks base p top rest
    else blocks base p top rest

def Sorted (base : α → Nat) (l : List α) : Prop := l.Pairwise fun a b => base a ≤ base b

theorem segAt_append (l1 l2 : List α) (x : Nat) :
    segAt base (l1 ++ l2) x = (segAt base l2 x).or (segAt base l1 x) := by
  induction l1 with
  | nil => simp [segAt]
  | cons m l1 ih => rw [cons_append, segAt, ih, segAt, Option.or_assoc]

theorem segAt_eq_none : segAt base l x = none ↔ ∀ m ∈ l, x < base m := by
  induction l with
  | nil => simp [segAt]
  | cons m l ih =>
    rw [segAt, or_eq_none_iff, ih]
    simp [and_comm]

theorem segAt_mem (h : segAt base l x = some m) : m ∈ l ∧ base m ≤ x := by
  induction l with
  | nil => cases h
  | cons m' l ih =>
    rw [segAt] at h
    cases hrest : segAt base l x with
    | some r =>
      rw [hrest] at h
      obtain rfl : r = m := some.inj h
      exact ⟨mem_cons_of_mem _ (ih hrest).1, (ih hrest).2⟩
    | none =>
      rw [hrest, none_or] at h
      split at h
      · rename_i hle
        obtain rfl : m' = m := some.inj h
        exact ⟨mem_cons_self, hle⟩
      · cases h

theorem segAt_cons_none (hs : Sorted base (m :: l)) : segAt base (m :: l) x = none ↔ x < base m := by
  rw [segAt_eq_none]
  constructor
  · exact fun h => h m mem_cons_self
  · intro hlt m' hm'
    rcases mem_cons.mp hm' with rfl | hm'
    · exact hlt
    · exact Nat.lt_of_lt_of_le hlt (rel_of_pairwise_cons hs hm')

theorem segAt_insert {m1 m2 new : α} (hs : Sorted base (l1 ++ m1 :: m2 :: l2))
    (x : Nat) :
    segAt base (l1 ++ m1 :: new :: m2 :: l2) x =
      if base new ≤ x ∧ x < base m2 then some new else segAt base (l1 ++ m1 :: m2 :: l2) x := by
  have hs2 : Sorted base (m2 :: l2) := by
    have hsub : (m2 :: l2).Sublist (l1 ++ m1 :: m2 :: l2) :=
      (sublist_cons_self _ _).trans (sublist_append_right _ _)
    exact List.Pairwise.sublist hsub hs
  have hcons : ∀ m l, segAt base (m :: l) x =
      (segAt base l x).or (if base m ≤ x then some m else none) := fun _ _ => rfl
  rw [segAt_append, segAt_append, hcons m1, hcons new, hcons m1]
  rcases Nat.lt_or_ge x (base m2) with hlt | hge
  · rw [(segAt_cons_none hs2).mpr hlt, none_or, none_or]
    by_cases hnew : base new ≤ x
    · simp [hnew, hlt]
    · simp [hnew]
  · cases hrest : segAt base (m2 :: l2) x with
    | none => exact absurd ((segAt_cons_none hs2).mp hrest) (Nat.not_lt.mpr hge)
    | some r => simp [Nat.not_lt.mpr hge]

theorem segAt_between {m2 : α} (hs : Sorted base (l1 ++ m :: m2 :: l2)) (hle : base m ≤ x)
    (hlt : x < base m2) : segAt base (l1 ++ m :: m2 :: l2) x = some m := by
  have hs2 : Sorted base (m2 :: l2) := by
    have hsub : (m2 :: l2).Sublist (l1 ++ m :: m2 :: l2) :=
      (sublist_cons_self _ _).trans (sublist_append_right _ _)
    exact List.Pairwise.sublist hsub hs
  rw [segAt_append, segAt, (segAt_cons_none hs2).mpr hlt, none_or, if_pos hle, some_or]

theorem segAt_last (hle : base m ≤ x) : segAt base (l1 ++ [m]) x = some m := by
  rw [segAt_append, segAt, segAt, none_or, if_pos hle, some_or]

theorem segAt_self (hs : l.Pairwise fun a b => base a < base b) (hm : m ∈ l) :
    segAt base l (base m) = some m := by
  obtain ⟨l1, l2, rfl⟩ := append_of_mem hm
  cases l2 with
  | nil => exact segAt_last (Nat.le_refl _)
  | cons m2 l2 =>
    have hlt := rel_of_pairwise_cons (pairwise_append.mp hs).2.1 mem_cons_self
    exact segAt_between (hs.imp Nat.le_of_lt) (Nat.le_refl _) hlt

variable {f : α → α}

theorem segAt_map (hf : ∀ a, base (f a) = base a) (l : List α) (x : Nat) :
    segAt base (l.map f) x = (segAt base l x).map f := by
  induction l with
  | nil => rfl
  | cons m l ih =>
    rw [map_cons, segAt, ih, segAt, hf]
    cases segAt base l x with
    | some r => rfl
    | none =>
      split <;> rfl

/-- What a list says of a number depends on the bases and on what is asked. -/
theorem segAt_congr {f : α → β} (h : l1.map (fun a => (base a, f a)) = l2.map fun a => (base a, f a))
    (x : Nat) : (segAt base l1 x).map f = (segAt base l2 x).map f := by
  induction l1 generalizing l2 with
  | nil =>
    obtain rfl : l2 = [] := map_eq_nil_iff.mp h.symm
    rfl
  | cons m l1 ih =>
    cases l2 with
    | nil => cases h
    | cons m' l2 =>
      obtain ⟨hhead, htail⟩ := cons_eq_cons.mp h
      obtain ⟨hbase, hf⟩ := Prod.mk.injEq .. ▸ hhead
      have ih := ih htail
      rw [segAt, segAt]
      cases h1 : segAt base l1 x with
      | some r =>
        cases h2 : segAt base l2 x with
        | some r' =>
          rw [h1, h2] at ih
          exact ih
        | none =>
          rw [h1, h2] at ih
          cases ih
      | none =>
        cases h2 : segAt base l2 x with
        | some r' =>
          rw [h1, h2] at ih
          cases ih
        | none =>
          rw [none_or, none_or, ← hbase]
          split
          · simp [hf]
          · rfl

/-! ## Blocks -/

theorem nextBase_map (hf : ∀ a, base (f a) = base a) (l : List α) :
    nextBase base top (l.map f) = nextBase base top l := by
  cases l with
  | nil => rfl
  | cons m l => exact hf m

theorem blocks_map (hf : ∀ a, base (f a) = base a) (l : List α) :
    blocks base p top (l.map f) = blocks base (fun a => p (f a)) top l := by
  induction l with
  | nil => rfl
  | cons m l ih => rw [map_cons, blocks, blocks, ih, hf, nextBase_map hf]

theorem blocks_congr (h : l1.map (fun a => (base a, p a)) = l2.map fun a => (base a, p a)) :
    blocks base p top l1 = blocks base p top l2 := by
  induction l1 generalizing l2 with
  | nil =>
    obtain rfl : l2 = [] := map_eq_nil_iff.mp h.symm
    rfl
  | cons m l1 ih =>
    cases l2 with
    | nil => cases h
    | cons m' l2 =>
      obtain ⟨hhead, htail⟩ := cons_eq_cons.mp h
      obtain ⟨hbase, hp⟩ := Prod.mk.injEq .. ▸ hhead
      have hnext : nextBase base top l1 = nextBase base top l2 := by
        cases l1 with
        | nil =>
          obtain rfl : l2 = [] := map_eq_nil_iff.mp htail.symm
          rfl
        | cons a l1 =>
          cases l2 with
          | nil => cases htail
          | cons b l2 => exact congrArg Prod.fst (cons_eq_cons.mp htail).1
      rw [blocks, blocks, ih htail, hbase, hp, hnext]

theorem blocks_filter (q : Nat → Bool) (l : List α) :
    blocks base (fun a => p a && q (base a)) top l =
      (blocks base p top l).filter fun b => q b.1 := by
  induction l with
  | nil => rfl
  | cons m l ih =>
    rw [blocks, blocks, ih]
    cases hp : p m with
    | false => simp
    | true =>
      cases hq : q (base m) with
      | true | false => simp [hq]

theorem blocks_append (l1 l2 : List α) :
    blocks base p top (l1 ++ l2) =
      blocks base p (nextBase base top l2) l1 ++ blocks base p top l2 := by
  have hnext : ∀ l : List α, nextBase base top (l ++ l2) =
      nextBase base (nextBase base top l2) l := by
    intro l
    cases l <;> rfl
  induction l1 with
  | nil => rfl
  | cons m l1 ih =>
    rw [cons_append, blocks, blocks, ih, hnext]
    split <;> rfl

theorem block_base {b : Nat × Nat} (h : b ∈ blocks base p top l) :
    ∃ m ∈ l, p m = true ∧ base m = b.1 := by
  induction l with
  | nil => cases h
  | cons m l ih =>
    rw [blocks] at h
    split at h
    · rename_i hm
      rcases mem_cons.mp h with rfl | h
      · exact ⟨m, mem_cons_self, hm, rfl⟩
      · obtain ⟨m', hmem, hm'⟩ := ih h
        exact ⟨m', mem_cons_of_mem _ hmem, hm'⟩
    · obtain ⟨m', hmem, hm'⟩ := ih h
      exact ⟨m', mem_cons_of_mem _ hmem, hm'⟩

theorem le_block {a : Nat} (h : ∀ m ∈ l, a ≤ base m) : ∀ b ∈ blocks base p top l, a ≤ b.1 := by
  induction l with
  | nil => exact fun b hb => absurd hb not_mem_nil
  | cons m l ih =>
    intro b hb
    rw [blocks] at hb
    have hrest := ih fun m' hm' => h m' (.tail _ hm')
    split at hb
    · rcases mem_cons.mp hb with rfl | hb
      · exact h m mem_cons_self
      · exact hrest b hb
    · exact hrest b hb

theorem block_lt (hs : l.Pairwise fun a b => base a < base b) (htop : ∀ m ∈ l, base m < top) :
    ∀ b ∈ blocks base p top l, b.1 < b.2 ∧ b.2 ≤ top := by
  induction l with
  | nil => exact fun b hb => absurd hb not_mem_nil
  | cons m l ih =>
    intro b hb
    have ih := ih hs.of_cons fun m' hm' => htop m' (.tail _ hm')
    rw [blocks] at hb
    split at hb
    · rcases mem_cons.mp hb with rfl | hb
      · cases l with
        | nil => exact ⟨htop m mem_cons_self, (Nat.le_refl _)⟩
        | cons m' l =>
          have hm' := htop m' (.tail _ mem_cons_self)
          exact ⟨rel_of_pairwise_cons hs mem_cons_self, Nat.le_of_lt hm'⟩
      · exact ih b hb
    · exact ih b hb

theorem blocks_disjoint (hs : Sorted base l) (htop : ∀ m ∈ l, base m ≤ top) :
    (blocks base p top l).Pairwise fun a b => a.2 ≤ b.1 := by
  induction l with
  | nil => exact List.Pairwise.nil
  | cons m l ih =>
    have htail := ih hs.of_cons fun m' hm' => htop m' (.tail _ hm')
    rw [blocks]
    split
    · refine List.Pairwise.cons (fun b hb => ?_) htail
      cases l with
      | nil => cases hb
      | cons m' l =>
        refine le_block (fun m'' hm'' => ?_) b hb
        rcases mem_cons.mp hm'' with rfl | hm''
        · exact (Nat.le_refl _)
        · exact rel_of_pairwise_cons hs.of_cons hm''
    · exact htail

theorem mem_blocks (hs : Sorted base l) (hx : x < top) :
    (∃ b ∈ blocks base p top l, b.1 ≤ x ∧ x < b.2) ↔
      ∃ m, segAt base l x = some m ∧ p m = true := by
  induction l with
  | nil => simp [blocks, segAt]
  | cons m l ih =>
    have ih := ih hs.of_cons
    rw [segAt]
    cases hrest : segAt base l x with
    | some r =>
      rw [hrest] at ih
      rw [some_or, ← ih, blocks]
      -- the object of `x` comes later, so `x` is not in the first segment
      have hpast : ¬ x < nextBase base top l := by
        cases l with
        | nil => cases hrest
        | cons m' l =>
          intro hlt
          rw [(segAt_cons_none hs.of_cons).mpr hlt] at hrest
          cases hrest
      split
      · simp [hpast]
      · rfl
    | none =>
      have hbefore : ¬ ∃ b ∈ blocks base p top l, b.1 ≤ x ∧ x < b.2 := by
        rw [ih, hrest]
        simp
      have hnext : x < nextBase base top l := by
        cases l with
        | nil => exact hx
        | cons m' l => exact (segAt_cons_none hs.of_cons).mp hrest
      rw [none_or, blocks]
      split
      · rename_i hp
        simp only [mem_cons, exists_eq_or_imp, hnext, hbefore]
        split
        · rename_i hle
          simp [hle, hp]
        · rename_i hle
          simp [hle]
      · rename_i hp
        refine ⟨fun h => absurd h hbefore, ?_⟩
        rintro ⟨m', hm', hp'⟩
        split at hm'
        · obtain rfl : m = m' := some.inj hm'
          exact absurd hp' hp
        · cases hm'

/-! ## Thinning

A pass over neighbours that leaves some objects out: each object is compared
with the last one that was kept. -/

/-- The objects that are kept, after the kept object `m`. -/
def thin (drop : α → α → Bool) : α → List α → List α
  | m, [] => [m]
  | m, m' :: rest => if drop m m' then thin drop m rest else m :: thin drop m' rest

variable {drop : α → α → Bool}

theorem thin_sublist (m : α) (l : List α) : (thin drop m l).Sublist (m :: l) := by
  induction l generalizing m with
  | nil => rfl
  | cons m' l ih =>
    rw [thin]
    split
    · exact (ih m).trans ((sublist_cons_self m' l).cons_cons m)
    · exact (ih m').cons_cons m

theorem mem_thin_head (m : α) (l : List α) : m ∈ thin drop m l := by
  induction l generalizing m with
  | nil => exact mem_cons_self
  | cons m' l ih =>
    rw [thin]
    split
    · exact ih m
    · simp

theorem mem_thin {R : α → α → Prop} {m' : α} (m : α) (l : List α) (hr : (m :: l).Pairwise R)
    (hmem : m' ∈ m :: l) (hkeep : ∀ a ∈ m :: l, R a m' → drop a m' = false) :
    m' ∈ thin drop m l := by
  induction l generalizing m with
  | nil => exact hmem
  | cons m2 l ih =>
    have hsub : (m :: l).Sublist (m :: m2 :: l) := (sublist_cons_self m2 l).cons_cons m
    rw [thin]
    by_cases hdrop : drop m m2 = true
    · rw [if_pos hdrop]
      apply ih m (hr.sublist hsub) _ fun a ha => hkeep a (hsub.subset ha)
      rcases mem_cons.mp hmem with rfl | hmem
      · simp
      rcases mem_cons.mp hmem with rfl | hmem
      · have hm := hkeep m mem_cons_self (rel_of_pairwise_cons hr mem_cons_self)
        rw [hm] at hdrop
        cases hdrop
      · exact .tail _ hmem
    · rw [if_neg hdrop]
      rcases mem_cons.mp hmem with rfl | hmem
      · simp
      · apply mem_cons_of_mem
        exact ih m2 hr.of_cons hmem fun a ha => hkeep a (.tail _ ha)

/-- When only objects that agree on `f` are dropped, each number keeps it. -/
theorem thin_segAt {f : α → β} (hf : ∀ a b, drop a b = true → f a = f b) (x : Nat) (m : α)
    (l : List α) (hs : Sorted base (m :: l)) :
    (segAt base (thin drop m l) x).map f = (segAt base (m :: l) x).map f := by
  induction l generalizing m with
  | nil => rfl
  | cons m' l ih =>
    have hcons : ∀ m l, segAt base (m :: l) x =
        (segAt base l x).or (if base m ≤ x then some m else none) := fun _ _ => rfl
    have hle : base m ≤ base m' := rel_of_pairwise_cons hs mem_cons_self
    rw [thin]
    by_cases hdrop : drop m m' = true
    · have hs' : Sorted base (m :: l) :=
        List.Pairwise.sublist ((sublist_cons_self m' l).cons_cons m) hs
      rw [if_pos hdrop, ih m hs', hcons m, hcons m, hcons m']
      cases segAt base l x with
      | some r => rfl
      | none =>
        rw [none_or, none_or]
        by_cases hx : base m' ≤ x
        · rw [if_pos hx, if_pos (Nat.le_trans hle hx), some_or, map_some, map_some, hf m m' hdrop]
        · rw [if_neg hx, none_or]
    · rw [if_neg hdrop, hcons m, hcons m]
      have ih := ih m' hs.of_cons
      cases h1 : segAt base (thin drop m' l) x with
      | some r =>
        cases h2 : segAt base (m' :: l) x with
        | some r' =>
          rw [h1, h2] at ih
          exact ih
        | none =>
          rw [h1, h2] at ih
          cases ih
      | none =>
        cases h2 : segAt base (m' :: l) x with
        | some r' =>
          rw [h1, h2] at ih
          cases ih
        | none => rfl

theorem thin_strict (m : α) (l : List α) (hs : Sorted base (m :: l)) :
    (thin (fun a b => decide (base a = base b)) m l).Pairwise fun a b => base a < base b := by
  induction l generalizing m with
  | nil => exact pairwise_singleton _ _
  | cons m' l ih =>
    rw [thin]
    by_cases heq : base m = base m'
    · rw [if_pos (decide_eq_true heq)]
      exact ih m (List.Pairwise.sublist ((sublist_cons_self m' l).cons_cons m) hs)
    rw [if_neg (by simp [heq])]
    apply List.Pairwise.cons _ (ih m' hs.of_cons)
    intro a ha
    have hle : base m ≤ base m' := rel_of_pairwise_cons hs mem_cons_self
    have hlt : base m < base m' := Nat.lt_of_le_of_ne hle heq
    rcases mem_cons.mp ((thin_sublist m' l).subset ha) with rfl | ha
    · exact hlt
    · exact Nat.lt_of_lt_of_le hlt (rel_of_pairwise_cons hs.of_cons ha)

/-- Sorted by base, and objects with one base by falling rank. -/
def Ranked (base rank : α → Nat) (a b : α) : Prop :=
  base a < base b ∨ base a = base b ∧ rank b ≤ rank a

theorem Ranked.le {rank : α → Nat} {a b : α} (h : Ranked base rank a b) : base a ≤ base b := by
  rcases h with h | h
  · omega
  · exact Nat.le_of_eq h.1

/-- The object that a number has when one object is kept for each base: no
object that begins below the number begins later or ranks higher. -/
theorem thin_top {rank : α → Nat} (m : α) (l : List α) (hr : (m :: l).Pairwise (Ranked base rank))
    {top : α} (h : segAt base (thin (fun a b => decide (base a = base b)) m l) x = some top) :
    ∀ a ∈ m :: l, base a ≤ x → base a < base top ∨ base a = base top ∧ rank a ≤ rank top := by
  induction l generalizing m with
  | nil =>
    intro a ha hx
    obtain rfl := mem_singleton.mp ha
    obtain rfl := mem_singleton.mp (segAt_mem h).1
    omega
  | cons m' l ih =>
    intro a ha hx
    have hhead : Ranked base rank m m' := rel_of_pairwise_cons hr mem_cons_self
    rw [thin] at h
    by_cases heq : base m = base m'
    · rw [if_pos (decide_eq_true heq)] at h
      have hskip : (m :: l).Pairwise (Ranked base rank) :=
        hr.sublist ((sublist_cons_self m' l).cons_cons m)
      have ih := ih m hskip h
      rcases mem_cons.mp ha with rfl | ha
      · exact ih a mem_cons_self hx
      rcases mem_cons.mp ha with rfl | ha
      · have hm := ih m mem_cons_self (by omega)
        have hrank : rank a ≤ rank m := by
          rcases hhead with hlt | ⟨-, hrank⟩
          · omega
          · exact hrank
        omega
      · exact ih a (.tail _ ha) hx
    · rw [if_neg (by simp [heq]), segAt] at h
      have hlt : base m < base m' := by
        have hle := hhead.le
        omega
      have hs : ∀ b ∈ m' :: l, base m' ≤ base b := by
        intro b hb
        rcases mem_cons.mp hb with rfl | hb
        · omega
        · exact (rel_of_pairwise_cons hr.of_cons hb).le
      cases htail : segAt base (thin (fun a b => decide (base a = base b)) m' l) x with
      | some r =>
        rw [htail] at h
        obtain rfl : r = top := some.inj h
        rcases mem_cons.mp ha with rfl | ha
        · have hge := hs r ((thin_sublist m' l).subset (segAt_mem htail).1)
          omega
        · exact ih m' hr.of_cons htail a ha hx
      | none =>
        rw [htail, none_or] at h
        have hbelow := segAt_eq_none.mp htail m' (mem_thin_head m' l)
        rcases mem_cons.mp ha with rfl | ha
        · rw [if_pos hx] at h
          obtain rfl : a = top := some.inj h
          omega
        · have hge := hs a ha
          omega

end Dancy.Lib.Segments
