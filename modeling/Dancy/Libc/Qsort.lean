import Dancy.Lib.Sort
import Mathlib.Algebra.Order.Ring.Nat

/-!
# `qsort` and `bsearch`

Both work on the bytes of an array of objects. An access outside the array
gives no result.
-/

namespace Dancy.Libc

open Dancy.Lib (Compares sink)
open List

/-- The object of `size` bytes at a place. -/
def objectAt (mem : List UInt8) (size p : Nat) : Option (List UInt8) :=
  if p + size ≤ mem.length then some ((mem.drop p).take size) else none

/-- The loop that exchanges the bytes of `t1` and `t2` from `k` on. -/
def exchange (t1 t2 : Nat) : Nat → Nat → List UInt8 → Option (List UInt8)
  | 0, _, mem => some mem
  | left + 1, k, mem =>
    match mem[t1 + k]?, mem[t2 + k]? with
    | some t3, some b => exchange t1 t2 left (k + 1) ((mem.set (t1 + k) b).set (t2 + k) t3)
    | _, _ => none

variable (compar : List UInt8 → List UInt8 → Int) (size : Nat)

/-- The inner loop of `qsort`. -/
def qsortInner : Nat → List UInt8 → Option (List UInt8)
  | 0, mem => some mem
  | j + 1, mem =>
    (objectAt mem size (j * size)).bind fun t1 =>
      (objectAt mem size ((j + 1) * size)).bind fun t2 =>
        if compar t1 t2 ≤ 0 then some mem
        else (exchange (j * size) ((j + 1) * size) size 0 mem).bind (qsortInner j)

def qsortOuter : Nat → Nat → List UInt8 → Option (List UInt8)
  | 0, _, mem => some mem
  | left + 1, i, mem => (qsortInner compar size i mem).bind (qsortOuter left (i + 1))

def qsort (nmemb : Nat) (mem : List UInt8) : Option (List UInt8) :=
  if size = 0 then some mem else qsortOuter compar size (nmemb - 1) 1 mem

/-- The loop of `bsearch` on `nmemb` objects from `base` on. -/
def bsearchLoop (key mem : List UInt8) : Nat → Nat → Nat → Option (Option Nat)
  | 0, _, nmemb => if nmemb > 0 then none else some none
  | fuel + 1, base, nmemb =>
    if nmemb > 0 then
      let i := nmemb >>> 1
      let p := base + i * size
      (objectAt mem size p).bind fun object =>
        let r := compar key object
        if r = 0 then some (some p)
        else if r < 0 then bsearchLoop key mem fuel base i
        else bsearchLoop key mem fuel (p + size) (nmemb - (i + 1))
    else some none

def bsearch (key : List UInt8) (nmemb : Nat) (mem : List UInt8) : Option (Option Nat) :=
  bsearchLoop compar size key mem nmemb 0 nmemb

/-- A total preorder, which the sign of the result tells. -/
structure Preorders : Prop extends Compares compar where
  sign : ∀ a b, compar a b < 0 ↔ 0 < compar b a

variable {compar size} {objects before after : List (List UInt8)} {x y key : List UInt8}

theorem flatten_length (h : ∀ o ∈ objects, o.length = size) :
    objects.flatten.length = objects.length * size := by
  induction objects with
  | nil => simp
  | cons o objects ih =>
    rw [forall_mem_cons] at h
    rw [flatten_cons, length_append, ih h.2, h.1, length_cons, Nat.succ_mul, add_comm]

theorem objectAt_flatten (after : List (List UInt8)) (h : ∀ o ∈ before, o.length = size) (hx : x.length = size) :
    objectAt (before ++ x :: after).flatten size (before.length * size) = some x := by
  have hlen := flatten_length h
  rw [flatten_append, flatten_cons, ← hlen, objectAt, drop_left, take_left' hx, if_pos]
  simp only [length_append]
  omega

theorem set_behind {pre rest : List UInt8} {c d : UInt8} {n : Nat} (h : n = pre.length) :
    (pre ++ c :: rest).set n d = pre ++ d :: rest := by
  simp [h]

/-- `w` is what was exchanged so far, between what is left of the objects. -/
theorem exchange_spec {t1 t2 : Nat} {rest : List UInt8} : ∀ {u v : List UInt8} (k : Nat)
    (pre w : List UInt8), u.length = v.length → t1 + k = pre.length →
    t2 + k = pre.length + u.length + w.length →
    exchange t1 t2 u.length k (pre ++ (u ++ (w ++ (v ++ rest)))) =
      some (pre ++ (v ++ (w ++ (u ++ rest)))) := by
  intro u
  induction u with
  | nil =>
    intro v _ pre w hlen _ _
    rw [length_eq_zero_iff.mp hlen.symm]
    rfl
  | cons c u ih =>
    intro v k pre w hlen h1 h2
    cases v with
    | nil => cases hlen
    | cons d v =>
      simp only [length_cons, Nat.add_right_cancel_iff] at hlen h2
      have hc : (pre ++ (c :: u ++ (w ++ (d :: v ++ rest))))[t1 + k]? = some c := by
        rw [h1]
        simp
      have hsplit : ∀ b, pre ++ (b :: u ++ (w ++ (d :: v ++ rest))) =
          (pre ++ (b :: u ++ w)) ++ d :: (v ++ rest) := by simp
      have hpos : t2 + k = (pre ++ (c :: u ++ w)).length := by
        simp
        omega
      have hd : (pre ++ (c :: u ++ (w ++ (d :: v ++ rest))))[t2 + k]? = some d := by
        rw [hsplit, hpos]
        simp
      have hset : ((pre ++ (c :: u ++ (w ++ (d :: v ++ rest)))).set (t1 + k) d).set (t2 + k) c =
          (pre ++ [d]) ++ (u ++ ((w ++ [c]) ++ (v ++ rest))) := by
        rw [cons_append, set_behind h1, ← cons_append, hsplit, set_behind (by simpa using hpos)]
        simp
      have hnext := ih (k + 1) (pre ++ [d]) (w ++ [c]) hlen
        (by simp; omega) (by simp; omega)
      rw [length_cons, exchange, hc, hd]
      dsimp only
      rw [hset, hnext]
      simp

theorem exchange_objects (after : List (List UInt8)) (h : ∀ o ∈ before, o.length = size) (hx : x.length = size)
    (hy : y.length = size) :
    exchange (before.length * size) ((before.length + 1) * size) size 0
      (before ++ y :: x :: after).flatten = some (before ++ x :: y :: after).flatten := by
  have hlen := flatten_length h
  have hspec := @exchange_spec (before.length * size) ((before.length + 1) * size) after.flatten
    y x 0 before.flatten [] (hy.trans hx.symm) (by omega) (by rw [Nat.succ_mul, length_nil]; omega)
  simpa [hy] using hspec

theorem qsortInner_spec {sorted : List (List UInt8)} (h : ∀ o ∈ sorted, o.length = size)
    (hx : x.length = size) : ∀ {after : List (List UInt8)},
    qsortInner compar size sorted.length (sorted.reverse ++ x :: after).flatten =
      some ((sink compar x sorted).reverse ++ after).flatten := by
  induction sorted with
  | nil => exact rfl
  | cons y sorted ih =>
    intro after
    rw [forall_mem_cons] at h
    have hrev : ∀ o ∈ sorted.reverse, o.length = size := fun o ho => h.2 o (mem_reverse.mp ho)
    have hy1 : ∀ o ∈ sorted.reverse ++ [y], o.length = size := by
      intro o ho
      rcases mem_append.mp ho with ho | ho
      · exact hrev o ho
      · rw [mem_singleton.mp ho]
        exact h.1
    have ht1 := objectAt_flatten (x :: after) hrev h.1
    have ht2 := objectAt_flatten after hy1 hx
    rw [length_append, length_reverse, append_assoc] at ht2
    rw [length_reverse] at ht1
    rw [reverse_cons, append_assoc, length_cons, qsortInner]
    simp only [singleton_append, length_singleton] at ht2 ⊢
    rw [ht1, ht2, Option.bind_some, Option.bind_some, sink]
    split
    · simp
    · have hexchange := exchange_objects after hrev hx h.1
      rw [length_reverse] at hexchange
      rw [hexchange, Option.bind_some, ih h.2]
      simp

theorem qsortOuter_spec {rest : List (List UInt8)} : ∀ {sorted : List (List UInt8)},
    (∀ o ∈ sorted, o.length = size) → (∀ o ∈ rest, o.length = size) →
    qsortOuter compar size rest.length sorted.length (sorted.reverse ++ rest).flatten =
      some (rest.foldl (fun sorted x => sink compar x sorted) sorted).reverse.flatten := by
  induction rest with
  | nil => exact fun _ _ => congrArg some (congrArg flatten (append_nil _))
  | cons x rest ih =>
    intro sorted hsorted hrest
    rw [forall_mem_cons] at hrest
    have hperm := Lib.sink_perm compar x sorted
    have hsink : ∀ o ∈ sink compar x sorted, o.length = size := by
      intro o ho
      rcases mem_cons.mp (hperm.mem_iff.mp ho) with rfl | ho
      · exact hrest.1
      · exact hsorted o ho
    have hnext := ih hsink hrest.2
    rw [hperm.length_eq, length_cons] at hnext
    rw [length_cons, qsortOuter, qsortInner_spec hsorted hrest.1, Option.bind_some, hnext]
    rfl

theorem qsort_spec (h : ∀ o ∈ objects, o.length = size) :
    qsort compar size objects.length objects.flatten = some (Lib.qsort compar objects).flatten := by
  unfold qsort
  split
  · rename_i hzero
    have hnil : ∀ l : List (List UInt8), (∀ o ∈ l, o.length = size) → l.flatten = [] := by
      intro l hl
      have hlen := flatten_length hl
      rw [hzero, mul_zero] at hlen
      exact length_eq_zero_iff.mp hlen
    rw [hnil _ h, hnil _ fun o ho => h o (Lib.mem_qsort.mp ho)]
  · cases objects with
    | nil => rfl
    | cons o objects =>
      rw [forall_mem_cons] at h
      have houter := @qsortOuter_spec compar size objects [o]
        (fun a ha => by rw [mem_singleton.mp ha]; exact h.1) h.2
      simpa [Lib.qsort, sink] using houter

theorem bsearchLoop_spec (hc : Preorders compar) {fuel : Nat} : ∀ {before mid after},
    objects = before ++ (mid ++ after) → (∀ o ∈ objects, o.length = size) →
    (objects.Pairwise fun a b => compar a b ≤ 0) → (∀ o ∈ before, 0 < compar key o) →
    (∀ o ∈ after, compar key o < 0) → mid.length ≤ fuel →
    ∃ r, bsearchLoop compar size key objects.flatten fuel (before.length * size) mid.length =
        some r ∧
      (∀ p, r = some p → ∃ i o, p = i * size ∧ objects[i]? = some o ∧ compar key o = 0) ∧
      (r = none → ∀ o ∈ objects, compar key o ≠ 0) := by
  have hdone : ∀ {before after : List (List UInt8)}, objects = before ++ after →
      (∀ o ∈ before, 0 < compar key o) → (∀ o ∈ after, compar key o < 0) →
      ∀ o ∈ objects, compar key o ≠ 0 := by
    intro before after hobj hlow hhigh o ho
    rw [hobj] at ho
    rcases mem_append.mp ho with ho | ho
    · have := hlow o ho
      omega
    · have := hhigh o ho
      omega
  induction fuel with
  | zero =>
    intro before mid after hobj _ _ hlow hhigh hfuel
    rw [length_eq_zero_iff.mp (Nat.le_zero.mp hfuel)] at hobj ⊢
    exact ⟨none, rfl, nofun, fun _ => hdone hobj hlow hhigh⟩
  | succ fuel ih =>
    intro before mid after hobj hsize hsorted hlow hhigh hfuel
    by_cases hnil : mid = []
    · rw [hnil] at hobj ⊢
      exact ⟨none, rfl, nofun, fun _ => hdone hobj hlow hhigh⟩
    have hpos := length_pos_iff.mpr hnil
    have hhalf : mid.length >>> 1 = mid.length / 2 := Nat.shiftRight_eq_div_pow _ 1
    -- the object in the middle
    obtain ⟨i, hi⟩ : ∃ i, i = mid.length / 2 := ⟨_, rfl⟩
    obtain ⟨l, o, r, hmid, hl⟩ : ∃ l o r, mid = l ++ o :: r ∧ l.length = i :=
      ⟨mid.take i, mid[i], mid.drop (i + 1), by simp, by simp; omega⟩
    have hplace : before.length * size + i * size = (before ++ l).length * size := by
      rw [length_append, hl, add_mul]
    have hall : objects = (before ++ l) ++ o :: (r ++ after) := by
      rw [hobj, hmid]
      simp
    have hobject : objectAt objects.flatten size ((before ++ l).length * size) = some o := by
      rw [hall] at hsize ⊢
      exact objectAt_flatten _ (fun a ha => hsize a (mem_append_left _ ha))
        (hsize o (mem_append_right _ mem_cons_self))
    have hrlen : mid.length - (i + 1) = r.length := by
      rw [hmid]
      simp
      omega
    have hparts := hsorted
    rw [hall, pairwise_append, pairwise_cons] at hparts
    obtain ⟨-, ⟨hright, -⟩, hleft⟩ := hparts
    rw [bsearchLoop, if_pos hpos, hhalf, ← hi]
    dsimp only
    rw [hplace, hobject, Option.bind_some]
    by_cases hzero : compar key o = 0
    · rw [if_pos hzero]
      refine ⟨_, rfl, fun p hp => ⟨(before ++ l).length, o, ?_, ?_, hzero⟩, nofun⟩
      · exact (Option.some.inj hp).symm
      · rw [hall]
        simp
    rw [if_neg hzero]
    by_cases hneg : compar key o < 0
    · -- everything from the middle on is above the key
      rw [if_pos hneg, ← hl]
      refine ih (by rw [hall, append_assoc]) hsize hsorted hlow (fun a ha => ?_) (by omega)
      rcases mem_cons.mp ha with rfl | ha
      · exact hneg
      · by_contra hge
        have hak := hc.sign key a
        have hok := hc.trans _ _ _ (hright a ha) (by omega : compar a key ≤ 0)
        have hko := (hc.sign key o).mp hneg
        omega
    · -- everything up to the middle is below the key
      have hnext : (before ++ l).length * size + size = ((before ++ l) ++ [o]).length * size := by
        rw [@length_append _ _ [o], length_singleton, Nat.succ_mul]
      rw [if_neg hneg, hrlen, hnext]
      refine ih (by rw [hall]; simp) hsize hsorted (fun a ha => ?_) hhigh (by omega)
      rcases mem_append.mp ha with ha | ha
      · by_contra hle
        have hko := hc.trans _ _ _ (by omega : compar key a ≤ 0) (hleft a ha o mem_cons_self)
        omega
      · rw [mem_singleton.mp ha]
        omega

/-- `qsort` sorts and keeps the order of equal objects, and `bsearch` on a
sorted array finds an object exactly when there is one; neither leaves the
array. -/
theorem qsort_bsearch (hc : Preorders compar) (h : ∀ o ∈ objects, o.length = size) :
    (∃ sorted : List (List UInt8), qsort compar size objects.length objects.flatten = some sorted.flatten ∧
      sorted.Perm objects ∧ (sorted.Pairwise fun a b => compar a b ≤ 0) ∧
      ∀ x, (sorted.filter fun a => compar x a = 0) = objects.filter fun a => compar x a = 0) ∧
    ((objects.Pairwise fun a b => compar a b ≤ 0) → ∀ key,
      ∃ r, bsearch compar size key objects.length objects.flatten = some r ∧
        (∀ p, r = some p → ∃ i o, p = i * size ∧ objects[i]? = some o ∧ compar key o = 0) ∧
        (r = none → ∀ o ∈ objects, compar key o ≠ 0)) := by
  refine ⟨⟨_, qsort_spec h, Lib.qsort_perm .., Lib.qsort_sorted hc.toCompares _, fun x => ?_⟩,
    fun hsorted key => ?_⟩
  · refine Lib.qsort_filter (fun a b ha hb => ?_) _
    rw [decide_eq_true_eq] at ha hb
    have hax := hc.sign x a
    exact hc.trans a x b (by omega) (by omega)
  · simpa [bsearch] using @bsearchLoop_spec compar size objects key hc objects.length [] objects [] (by simp) h hsorted nofun nofun le_rfl

def byteOrder (a b : List UInt8) : Int := (a.getD 0 0).toNat - (b.getD 0 0).toNat

theorem qsort_bsearch_bytes : ∃ sorted : List (List UInt8),
    qsort byteOrder 1 2 [3, 1] = some sorted.flatten ∧ sorted.Perm [[3], [1]] := by
  have horder : Preorders byteOrder :=
    ⟨⟨fun a b => by unfold byteOrder; omega, fun a b c => by unfold byteOrder; omega⟩,
      fun a b => by unfold byteOrder; omega⟩
  obtain ⟨sorted, hsort, hperm, -⟩ :=
    (@qsort_bsearch byteOrder 1 [[3], [1]] horder (by decide)).1
  exact ⟨sorted, hsort, hperm⟩

end Dancy.Libc
