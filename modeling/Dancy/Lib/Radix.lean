import Mathlib.Data.List.Flatten
import Mathlib.Data.List.Nodup
import Mathlib.Data.List.Pairwise
import Mathlib.Data.List.Perm.Basic

/-!
# Radix trees in memory

A tree of tables. The table of height `h + 1` has children of height `h`;
a node of height `0` is a leaf. Memory maps a frame and a slot to an
entry, and the entry decides the frame of the child. `nodes` lists what
lies below a table, each child after its own nodes.
-/

namespace Dancy.Lib.Radix

open List

universe u v

variable {φ : Type u} {ε : Type v}

/-- A child of a table: its height, the key that leads to it, its frame. -/
structure Node (φ : Type u) where
  (height key : Nat)
  frame : φ

/-- `slots h p` are the slots of the table with the key `p` whose children
have height `h`, and `kid h e` is the child the entry `e` stands for. -/
structure Shape (φ : Type u) (ε : Type v) where
  width : Nat
  slots : Nat → Nat → List Nat
  kid : Nat → ε → Option φ
  slots_nodup : ∀ h p, (slots h p).Nodup

def branch (below : Nat → φ → List (Node φ)) (h key : Nat) : Option φ → List (Node φ)
  | none => []
  | some c => below key c ++ [⟨h, key, c⟩]

def nodes (S : Shape φ ε) (mem : φ → Nat → ε) : Nat → Nat → φ → List (Node φ)
  | 0, _, _ => []
  | h + 1, p, t =>
    (S.slots h p).flatMap fun i =>
      branch (nodes S mem h) h (p * S.width + i) (S.kid h (mem t i))

def slot (S : Shape φ ε) (mem : φ → Nat → ε) (h p : Nat) (t : φ) (i : Nat) : List (Node φ) :=
  branch (nodes S mem h) h (p * S.width + i) (S.kid h (mem t i))

/-- Several trees, with their roots, which have the given height and the key
`0`. -/
def forest (S : Shape φ ε) (mem : φ → Nat → ε) (h : Nat) (roots : List φ) : List (Node φ) :=
  roots.flatMap fun r => branch (nodes S mem h) h 0 (some r)

def frames (l : List (Node φ)) : List φ := l.map Node.frame

def Tables (l : List (Node φ)) (f : φ) : Prop := ∃ x ∈ l, x.height ≠ 0 ∧ x.frame = f

variable {S : Shape φ ε} {mem mem' : φ → Nat → ε} {h p : Nat} {t : φ}

theorem nodes_succ : nodes S mem (h + 1) p t = (S.slots h p).flatMap (slot S mem h p t) := rfl

variable {x : Node φ} {i : Nat} {l : List (Node φ)} {f : φ} {α : Type*}

theorem mem_nodes_succ :
    x ∈ nodes S mem (h + 1) p t ↔ ∃ i ∈ S.slots h p, x ∈ slot S mem h p t i := by
  rw [nodes_succ, mem_flatMap]

theorem slot_none (hk : S.kid h (mem t i) = none) : slot S mem h p t i = [] := by
  rw [slot, hk]
  rfl

theorem slot_some {c : φ} (hk : S.kid h (mem t i) = some c) :
    slot S mem h p t i = nodes S mem h (p * S.width + i) c ++ [⟨h, p * S.width + i, c⟩] := by
  rw [slot, hk]
  rfl

theorem frames_append (l l' : List (Node φ)) : frames (l ++ l') = frames l ++ frames l' :=
  map_append

theorem mem_frames_of_mem (hx : x ∈ l) : x.frame ∈ frames l :=
  mem_map_of_mem hx

theorem Tables.mem_frames (hf : Tables l f) : f ∈ frames l := by
  obtain ⟨x, hx, -, rfl⟩ := hf
  exact mem_frames_of_mem hx

theorem Tables.mono {l l' : List (Node φ)} (hf : Tables l f) (hsub : ∀ x ∈ l, x ∈ l') :
    Tables l' f := by
  obtain ⟨x, hx, hh, rfl⟩ := hf
  exact ⟨x, hsub x hx, hh, rfl⟩

theorem node_eq_of_frame (hnd : (frames l).Nodup) {x y : Node φ} (hx : x ∈ l) (hy : y ∈ l)
    (heq : x.frame = y.frame) : x = y :=
  inj_on_of_nodup_map hnd hx hy heq

theorem nodes_congr :
    ∀ {h p : Nat} {t : φ},
      (∀ f, Tables (nodes S mem h p t ++ [⟨h, p, t⟩]) f → ∀ j, mem' f j = mem f j) →
      nodes S mem' h p t = nodes S mem h p t := by
  intro h
  induction h with
  | zero =>
    intro p t _
    rfl
  | succ h ih =>
    intro p t hagree
    rw [nodes_succ, nodes_succ]
    refine flatMap_congr fun i hi => ?_
    have hentry : mem' t i = mem t i :=
      hagree t ⟨⟨h + 1, p, t⟩, by simp, Nat.succ_ne_zero h, rfl⟩ i
    cases hk : S.kid h (mem t i) with
    | none => rw [slot_none hk, slot_none (hentry ▸ hk)]
    | some c =>
      have hslot := slot_some (p := p) hk
      rw [hslot, slot_some (hentry ▸ hk), ih]
      intro f hf
      refine hagree f (hf.mono fun x hx => mem_append_left _ ?_)
      rw [mem_nodes_succ]
      exact ⟨i, hi, by rw [hslot]; exact hx⟩

theorem slot_congr (hentry : mem' t i = mem t i)
    (hagree : ∀ f, Tables (slot S mem h p t i) f → ∀ j, mem' f j = mem f j) :
    slot S mem' h p t i = slot S mem h p t i := by
  cases hk : S.kid h (mem t i) with
  | none => rw [slot_none hk, slot_none (hentry ▸ hk)]
  | some c =>
    have hslot := slot_some (p := p) hk
    rw [hslot] at hagree ⊢
    rw [slot_some (hentry ▸ hk), nodes_congr hagree]

theorem forest_congr {roots : List φ}
    (hagree : ∀ f, Tables (forest S mem h roots) f → ∀ j, mem' f j = mem f j) :
    forest S mem' h roots = forest S mem h roots := by
  refine flatMap_congr fun r hr => ?_
  simp only [branch]
  rw [nodes_congr]
  intro f hf
  exact hagree f (hf.mono fun x hx => mem_flatMap.mpr ⟨r, hr, hx⟩)

/-! ## One changed entry -/

section Update

variable {α : Type*} {β : Type*}

theorem flatMap_change {l : List α} (hl : l.Nodup) {a : α} (ha : a ∈ l)
    {F F' : α → List β} (hother : ∀ b ∈ l, b ≠ a → F' b = F b) {A A' : List β} (rest : List β)
    (h : (F a).Perm (A ++ rest)) (h' : (F' a).Perm (A' ++ rest)) :
    ∃ rest', (l.flatMap F).Perm (A ++ rest') ∧ (l.flatMap F').Perm (A' ++ rest') := by
  obtain ⟨l1, l2, rfl⟩ := append_of_mem ha
  have hnot : a ∉ l1 ∧ a ∉ l2 := by
    have hmid := nodup_middle.mp hl
    rw [nodup_cons, mem_append, not_or] at hmid
    exact hmid.1
  have hF1 : l1.flatMap F' = l1.flatMap F := flatMap_congr fun b hb =>
      hother b (mem_append_left _ hb) (fun heq => hnot.1 (heq ▸ hb))
  have hF2 : l2.flatMap F' = l2.flatMap F := flatMap_congr fun b hb =>
      hother b (mem_append_right _ (.tail _ hb))
        (fun heq => hnot.2 (heq ▸ hb))
  -- the contribution of `a` is moved to the front
  have hmove : ∀ (G : α → List β) (B : List β), (G a).Perm (B ++ rest) →
      ((l1 ++ a :: l2).flatMap G).Perm (B ++ (rest ++ (l1.flatMap G ++ l2.flatMap G))) := by
    intro G B hB
    rw [flatMap_append, flatMap_cons, ← append_assoc B]
    refine List.Perm.trans ?_ (hB.append_right _)
    rw [← append_assoc, ← append_assoc]
    exact perm_append_comm.append_right _
  refine ⟨rest ++ (l1.flatMap F ++ l2.flatMap F), hmove F A h, ?_⟩
  rw [← hF1, ← hF2]
  exact hmove F' A' h'

end Update

theorem frames_flatMap (l : List α) (F : α → List (Node φ)) :
    frames (l.flatMap F) = l.flatMap fun a => frames (F a) :=
  map_flatMap

theorem frames_disjoint {l : List α} {F : α → List (Node φ)} (hnd : (frames (l.flatMap F)).Nodup)
    {a b : α} (ha : a ∈ l) (hb : b ∈ l) (hne : a ≠ b) (hfa : f ∈ frames (F a)) :
    f ∉ frames (F b) := by
  rw [frames_flatMap, nodup_flatMap] at hnd
  have : Std.Symm (Function.onFun List.Disjoint fun a => frames (F a)) :=
    ⟨fun _ _ hd _ hb ha => hd ha hb⟩
  exact fun hfb => hnd.2.forall ha hb hne hfa hfb

theorem frames_nodup_of_mem {l : List α} {F : α → List (Node φ)}
    (hnd : (frames (l.flatMap F)).Nodup) {a : α} (ha : a ∈ l) : (frames (F a)).Nodup := by
  rw [frames_flatMap, nodup_flatMap] at hnd
  exact hnd.1 a ha

section Change

variable {h0 p0 i0 : Nat} {t0 : φ}

section

variable (hmem : ∀ f j, ¬ (f = t0 ∧ j = i0) → mem' f j = mem f j)
include hmem

theorem slot_keep {i : Nat} (hentry : ¬ (t = t0 ∧ i = i0)) (hout : t0 ∉ frames (slot S mem h p t i)) :
    slot S mem' h p t i = slot S mem h p t i := by
  refine slot_congr (hmem t i hentry) fun f hf j => hmem f j ?_
  rintro ⟨rfl, -⟩
  exact hout hf.mem_frames

/-- **One changed entry.** Only what lies behind its slot is exchanged. -/
theorem nodes_update (hi0 : i0 ∈ S.slots h0 p0) :
    ∀ {h p : Nat} {t : φ}, (frames (nodes S mem h p t ++ [⟨h, p, t⟩])).Nodup →
      ⟨h0 + 1, p0, t0⟩ ∈ nodes S mem h p t ++ [⟨h, p, t⟩] →
      ∃ rest, (nodes S mem h p t).Perm (slot S mem h0 p0 t0 i0 ++ rest) ∧
        (nodes S mem' h p t).Perm (slot S mem' h0 p0 t0 i0 ++ rest) := by
  intro h
  induction h with
  | zero =>
    intro p t _ hin
    simp [nodes] at hin
  | succ h ih =>
    intro p t hnd hin
    have hroot : t ∉ frames (nodes S mem (h + 1) p t) := by
      rw [frames_append, nodup_append] at hnd
      intro ht
      exact hnd.2.2 t ht t (by simp [frames]) rfl
    have hbelow : (frames (nodes S mem (h + 1) p t)).Nodup := by
      rw [frames_append, nodup_append] at hnd
      exact hnd.1
    rw [nodes_succ] at hroot hbelow
    have hroot : ∀ i ∈ S.slots h p, t ∉ frames (slot S mem h p t i) := by
      intro i hi hf
      rw [frames_flatMap] at hroot
      exact hroot (mem_flatMap.mpr ⟨i, hi, hf⟩)
    rcases mem_append.mp hin with hin | hin
    · -- the table lies behind slot `i`
      obtain ⟨i, hi, hx⟩ := mem_nodes_succ.mp hin
      have hne : t ≠ t0 := by
        rintro rfl
        exact hroot i hi (mem_frames_of_mem hx)
      have hentry : ∀ j, mem' t j = mem t j := fun j => hmem t j fun heq => hne heq.1
      cases hk : S.kid h (mem t i) with
      | none =>
        rw [slot_none hk] at hx
        cases hx
      | some c =>
        have hslot := slot_some (p := p) hk
        have hslot' := slot_some (p := p) (show S.kid h (mem' t i) = some c by
          rw [hentry, hk])
        have hnd' := frames_nodup_of_mem hbelow hi
        rw [hslot] at hnd' hx
        obtain ⟨rest, hold, hnew⟩ := ih hnd' hx
        rw [nodes_succ, nodes_succ]
        refine flatMap_change (S.slots_nodup h p) hi (fun j hj hji => ?_)
          (rest ++ [⟨h, p * S.width + i, c⟩]) ?_ ?_
        · refine slot_keep hmem (fun heq => hne heq.1) fun hf => ?_
          refine frames_disjoint hbelow hj hi hji hf ?_
          rw [hslot]
          exact mem_frames_of_mem hx
        · rw [hslot, ← append_assoc]
          exact hold.append_right _
        · rw [hslot', ← append_assoc]
          exact hnew.append_right _
    · -- it is the table itself
      simp only [mem_singleton] at hin
      obtain ⟨rfl, rfl, rfl⟩ := hin
      rw [nodes_succ, nodes_succ]
      refine flatMap_change (S.slots_nodup _ _) hi0 (fun j hj hji => ?_) [] ?_ ?_
      · exact slot_keep hmem (fun heq => hji heq.2) (hroot j hj)
      · rw [append_nil]
      · rw [append_nil]

theorem forest_update (hi0 : i0 ∈ S.slots h0 p0) {roots : List φ}
    (hnd : (frames (forest S mem h roots)).Nodup) (hin : ⟨h0 + 1, p0, t0⟩ ∈ forest S mem h roots) :
    ∃ rest, (forest S mem h roots).Perm (slot S mem h0 p0 t0 i0 ++ rest) ∧
      (forest S mem' h roots).Perm (slot S mem' h0 p0 t0 i0 ++ rest) := by
  obtain ⟨r, hr, hx⟩ := mem_flatMap.mp hin
  have hroots : roots.Nodup := by
    rw [forest, frames_flatMap, nodup_flatMap] at hnd
    refine hnd.2.imp fun {a b} hd => ?_
    rintro rfl
    have hself : a ∈ frames (branch (nodes S mem h) h 0 (some a)) := by simp [branch, frames]
    exact hd hself hself
  obtain ⟨rest, hold, hnew⟩ := nodes_update hmem hi0 (frames_nodup_of_mem hnd hr) hx
  refine flatMap_change hroots hr (fun q hq hqr => ?_) (rest ++ [⟨h, 0, r⟩]) ?_ ?_
  · have hout := fun hf => frames_disjoint hnd hq hr hqr hf (mem_frames_of_mem hx)
    simp only [branch] at hout ⊢
    rw [nodes_congr]
    intro f hf j
    refine hmem f j ?_
    rintro ⟨rfl, -⟩
    exact hout hf.mem_frames
  · rw [← append_assoc]
    exact hold.append_right _
  · rw [← append_assoc]
    exact hnew.append_right _

end

end Change

theorem mem_forest_of_slot {h0 p0 i0 : Nat} {t0 : φ} {roots : List φ}
    (hnd : (frames (forest S mem h roots)).Nodup) (hin : ⟨h0 + 1, p0, t0⟩ ∈ forest S mem h roots)
    (hi0 : i0 ∈ S.slots h0 p0) (hx : x ∈ slot S mem h0 p0 t0 i0) : x ∈ forest S mem h roots := by
  obtain ⟨rest, hp, -⟩ := forest_update (fun _ _ _ => rfl) hi0 hnd hin
  exact hp.mem_iff.mpr (mem_append_left _ hx)

theorem nodes_eq_nil (hnone : ∀ i ∈ S.slots h p, S.kid h (mem t i) = none) :
    nodes S mem (h + 1) p t = [] := by
  exact flatMap_eq_nil_iff.mpr fun i hi => slot_none (hnone i hi)

theorem nodes_eq_slot (hi : i ∈ S.slots h p)
    (hnone : ∀ j ∈ S.slots h p, j ≠ i → S.kid h (mem t j) = none) :
    nodes S mem (h + 1) p t = slot S mem h p t i := by
  rw [nodes_succ]
  obtain ⟨l1, l2, hl⟩ := append_of_mem hi
  have hnd := S.slots_nodup h p
  rw [hl] at hnd hnone ⊢
  obtain ⟨hnot, -⟩ := nodup_cons.mp (nodup_middle.mp hnd)
  rw [mem_append, not_or] at hnot
  have hempty : ∀ l : List Nat, (∀ j ∈ l, j ∈ l1 ++ i :: l2) → i ∉ l →
      l.flatMap (slot S mem h p t) = [] := fun l hsub hni =>
    flatMap_eq_nil_iff.mpr fun j hj =>
      slot_none (hnone j (hsub j hj) fun heq => hni (heq ▸ hj))
  rw [flatMap_append, flatMap_cons, hempty l1 (fun j hj => mem_append_left _ hj) hnot.1,
    hempty l2 (fun j hj => mem_append_right _ (.tail _ hj)) hnot.2,
    nil_append, append_nil]

end Dancy.Lib.Radix
