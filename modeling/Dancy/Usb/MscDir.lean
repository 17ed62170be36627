import Dancy.Lib.Run

/-!
# The directory of the USB storage devices (`usb/usb_msc.c`)

Six slots have the nodes of the devices. A slot outside of the array that is
read leaves a mark in `outside`. A node is named by the number of its
allocation, `usb` is the device behind it, and `changed` tells of a device if it
is no longer the one that was attached.
-/

namespace Dancy.Usb

open Dancy.Lib Option

def INT_MAX : Int := 2147483647

/-- A node of a device; `freed` counts how often it was freed. -/
structure MscNode where
  count : Int
  (usb freed : Nat)

/-- `msc_dev_array`, the nodes, and the handles that are open. -/
structure MscDir where
  array : Nat → Option Nat
  nodes : Nat → MscNode
  next : Nat
  changed : Nat → Bool
  handles : Nat → Nat
  outside : Bool

def mscDevices : Nat := 6

def MscDir.setNode (st : MscDir) (n : Nat) (node : MscNode) : MscDir :=
  { st with nodes := fun k => if k = n then node else st.nodes k }

/-- An access to `msc_dev_array[i]`. -/
def MscDir.touch (st : MscDir) (i : Nat) : MscDir :=
  { st with outside := st.outside || mscDevices ≤ i }

def MscDir.setSlot (st : MscDir) (i : Nat) (n : Option Nat) : MscDir :=
  { st with array := fun k => if k = i then n else st.array k }

/-- `vfs_increment_count` on a count. -/
def incrementCount (count : Int) : Int := if count ≥ 0 ∧ count < INT_MAX then count + 1 else count

/-- `vfs_decrement_count` on a count. -/
def decrementCount (count : Int) : Int :=
  let count := if count ≥ 0 then count - 1 else count
  if count < -1 then -1 else count

/-- `n_release`. -/
def mscRelease (st : MscDir) (n : Nat) : MscDir :=
  let node := st.nodes n
  let count := decrementCount node.count
  if count > 0 then st.setNode n { node with count := count }
  else st.setNode n { node with count := 0, freed := node.freed + 1 }

/-! ## The directory -/

/-- One round of `check_media_changed_locked`. -/
def checkSlot (st : MscDir) (i : Nat) : MscDir :=
  let st := st.touch i
  match st.array i with
  | none => st
  | some n =>
    if st.changed (st.nodes n).usb then mscRelease (st.setSlot i none) n else st

/-- `check_media_changed_locked`. -/
def checkMediaChanged (st : MscDir) : MscDir := (List.range mscDevices).foldl checkSlot st

inductive MscOpened where
  | node (n : Nat)
  | name
  | busy
deriving DecidableEq

/-- `n_open` of `msc_dev_node`. -/
def mscOpen (st : MscDir) (name : List UInt8) (exclusive : Bool) : MscOpened × MscDir :=
  match name with
  | [c] =>
    if c < 0x30 ∨ 0x36 < c then (.name, st)
    else if exclusive then (.busy, st)
    else
      let i := c.toNat - 0x30
      let st := (checkMediaChanged st).touch i
      match st.array i with
      | some n =>
        (.node n, st.setNode n { st.nodes n with count := incrementCount (st.nodes n).count })
      | none => (.name, st)
  | _ => (.name, st)

inductive MscListed where
  | entry (name : List UInt8)
  | placeholder

/-- `n_readdir` of `msc_dev_node`; an empty name is the end. -/
def mscReaddir (st : MscDir) (offset : Nat) : MscListed × MscDir :=
  if offset = 0 then (.entry [0x2E], st)
  else if offset = 1 then (.entry [0x2E, 0x2E], st)
  else if offset < 6 then
    let st := (checkMediaChanged st).touch (offset - 2)
    match st.array (offset - 2) with
    | some _ => (.entry [UInt8.ofNat (0x30 + (offset - 2))], st)
    | none => (.placeholder, st)
  else (.entry [], st)

/-- The loop of `bulk_only_driver` over the slots from `i` on. -/
def attachLoop (usb : Nat) (mem : Bool) : (left i : Nat) → MscDir → MscDir
  | 0, _, st => st
  | left + 1, i, st =>
    let st := st.touch i
    if st.array i ≠ none then attachLoop usb mem left (i + 1) st
    else if mem then
      { (st.setNode st.next ⟨1, usb, 0⟩).setSlot i (some st.next) with next := st.next + 1 }
    else st

/-- The last part of `bulk_only_driver`. -/
def mscAttach (st : MscDir) (usb : Nat) (mem : Bool) : MscDir :=
  attachLoop usb mem mscDevices 0 (checkMediaChanged st)

/-- What happens: a device is attached, devices change, or the directory and
its nodes are used. -/
inductive MscOp where
  | attach (usb : Nat) (mem : Bool)
  | change (changed : Nat → Bool)
  | open (name : List UInt8) (exclusive : Bool)
  | readdir (offset : Nat)
  | release (n : Nat)

def MscDir.setHandles (st : MscDir) (n k : Nat) : MscDir :=
  { st with handles := fun m => if m = n then k else st.handles m }

def mscExec (st : MscDir) : MscOp → MscDir
  | .attach usb mem => mscAttach st usb mem
  | .change changed => { st with changed := changed }
  | .open name exclusive =>
    match mscOpen st name exclusive with
    | (.node n, st) => st.setHandles n (st.handles n + 1)
    | (_, st) => st
  | .readdir offset => (mscReaddir st offset).2
  | .release n => mscRelease (st.setHandles n (st.handles n - 1)) n

def MscStep (st : MscDir) (op : MscOp) (st' : MscDir) : Prop :=
  (∀ n, op = .release n → 0 < st.handles n) ∧ st' = mscExec st op

/-- Before the first device; `behind` is what stands behind the array. -/
def MscDir.initial (behind : Nat → Option Nat) (changed : Nat → Bool) (nodes : Nat → MscNode) :
    MscDir where
  array i := if i < mscDevices then none else behind i
  nodes := nodes
  next := 0
  changed := changed
  handles _ := 0
  outside := false

/-- A node is listed under the name of its slot. -/
def Listed (st : MscDir) (name : List UInt8) (n : Nat) : Prop :=
  ∃ i offset, i < mscDevices ∧ name = [UInt8.ofNat (0x30 + i)] ∧
    (checkMediaChanged st).array i = some n ∧ (mscReaddir st offset).1 = .entry name

/-- The name of the slot behind the last one is not opened, a device is not
attached behind four others, and the count of a node has room. -/
def Allowed (st : MscDir) : MscOp → Prop
  | .open name exclusive => exclusive = false → name ≠ [0x36] ∧
      ∀ i < mscDevices, ∀ n, name = [UInt8.ofNat (0x30 + i)] → st.array i = some n →
        (st.handles n : Int) + 1 < INT_MAX
  | .attach _ mem => mem = true → ∃ i < 4, (checkMediaChanged st).array i = none
  | _ => True

/-- No slot outside is read, names lead to their nodes, and a node is freed once. -/
structure MscSound (st : MscDir) : Prop where
  inside : st.outside = false
  listed : ∀ name n, name ≠ [0x36] → (Listed st name n ↔ (mscOpen st name false).1 = .node n)
  slot : ∀ i < mscDevices, ∀ n, st.array i = some n →
    (st.nodes n).freed = 0 ∧ (st.nodes n).count = 1 + st.handles n
  freed : ∀ n < st.next, (st.nodes n).freed =
    if st.handles n = 0 ∧ ∀ i < mscDevices, st.array i ≠ some n then 1 else 0

variable {st st' : MscDir} {i n : Nat}

def InSlot (st : MscDir) (n : Nat) : Prop := ∃ i < mscDevices, st.array i = some n

/-- What each operation keeps; the slots behind the fourth one stay empty. -/
structure MscInv (st : MscDir) : Prop where
  inside : st.outside = false
  slot : ∀ i < mscDevices, ∀ n, st.array i = some n → n < st.next ∧ i < 4
  same : ∀ i < mscDevices, ∀ j < mscDevices, ∀ n,
    st.array i = some n → st.array j = some n → i = j
  fresh : ∀ n, st.next ≤ n → st.handles n = 0
  filled : ∀ n, InSlot st n → (st.nodes n).freed = 0 ∧ (st.nodes n).count = 1 + st.handles n
  handled : ∀ n, ¬ InSlot st n → 0 < st.handles n →
    (st.nodes n).freed = 0 ∧ (st.nodes n).count = st.handles n
  gone : ∀ n < st.next, ¬ InSlot st n → st.handles n = 0 → (st.nodes n).freed = 1

theorem MscDir.touch_eq (st : MscDir) (hi : i < mscDevices) : st.touch i = st := by
  rw [touch, decide_eq_false (by omega), Bool.or_false]

@[simp] theorem MscDir.setNode_at (st : MscDir) (n : Nat) (node : MscNode) :
    (st.setNode n node).nodes n = node := if_pos rfl

@[simp] theorem MscDir.setHandles_at (st : MscDir) (n k : Nat) :
    (st.setHandles n k).handles n = k := if_pos rfl

theorem decrementCount_pos {k : Nat} (h : 0 < k) : decrementCount (k : Int) = (k - 1 : Nat) := by
  unfold decrementCount
  dsimp only
  split <;> split <;> omega

theorem mscRelease_node {k : Nat} (hk : 0 < k) (hcount : (st.nodes n).count = k)
    (hfreed : (st.nodes n).freed = 0) :
    ∃ node, mscRelease st n = st.setNode n node ∧
      (if k = 1 then node.freed = 1 else node.freed = 0 ∧ node.count = (k - 1 : Nat)) := by
  rw [mscRelease]
  rw [hcount, decrementCount_pos hk]
  by_cases hlast : k = 1
  · rw [if_neg (by omega)]
    refine ⟨_, rfl, ?_⟩
    rw [if_pos hlast]
    rw [hfreed]
  · rw [if_pos (by omega)]
    refine ⟨_, rfl, ?_⟩
    rw [if_neg hlast]
    exact ⟨hfreed, rfl⟩

/-! ## Devices that have changed -/

/-- Nothing but slots and their nodes is changed, and slots become empty. -/
structure Checked (st st' : MscDir) : Prop where
  array : ∀ i, st'.array i = st.array i ∨ st'.array i = none
  next : st'.next = st.next
  handles : st'.handles = st.handles
  outside : st'.outside = st.outside

theorem Checked.refl (st : MscDir) : Checked st st := ⟨fun _ => Or.inl rfl, rfl, rfl, rfl⟩

theorem Checked.trans {st'' : MscDir} (h : Checked st st') (h' : Checked st' st'') :
    Checked st st'' where
  array i := by
    rcases h'.array i with heq | heq
    · rw [heq]
      exact h.array i
    · exact Or.inr heq
  next := h'.next.trans h.next
  handles := h'.handles.trans h.handles
  outside := h'.outside.trans h.outside

section

variable (h : MscInv st)
include h

theorem MscInv.drop (hi : i < mscDevices) (hn : st.array i = some n) :
    MscInv (mscRelease (st.setSlot i none) n) ∧ Checked st (mscRelease (st.setSlot i none) n) := by
  obtain ⟨hfreed, hcount⟩ := h.filled n ⟨i, hi, hn⟩
  obtain ⟨node, hrelease, hnode⟩ := @mscRelease_node (st.setSlot i none) n (1 + st.handles n)
    (by omega) (by exact hcount) hfreed
  have hslots : ∀ j m, ((st.setSlot i none).setNode n node).array j = some m →
      j ≠ i ∧ st.array j = some m := by
    intro j m hj
    simp only [MscDir.setNode, MscDir.setSlot] at hj
    by_cases hji : j = i
    · rw [if_pos hji] at hj
      cases hj
    · rw [if_neg hji] at hj
      exact ⟨hji, hj⟩
  have hother : ∀ m, m ≠ n → (InSlot ((st.setSlot i none).setNode n node) m ↔ InSlot st m) := by
    intro m hm
    constructor
    · rintro ⟨j, hj, hjm⟩
      exact ⟨j, hj, (hslots j m hjm).2⟩
    rintro ⟨j, hj, hjm⟩
    refine ⟨j, hj, ?_⟩
    simp only [MscDir.setNode, MscDir.setSlot]
    rwa [if_neg (by rintro rfl; exact hm (some.inj (hjm.symm.trans hn)))]
  have hself : ¬ InSlot ((st.setSlot i none).setNode n node) n := by
    rintro ⟨j, hj, hjn⟩
    obtain ⟨hne, hjn⟩ := hslots j n hjn
    exact hne (h.same j hj i hi n hjn hn)
  have hnodes : ∀ m, m ≠ n → ((st.setSlot i none).setNode n node).nodes m = st.nodes m :=
    fun m hm => if_neg hm
  have hat : ((st.setSlot i none).setNode n node).nodes n = node := if_pos rfl
  rw [hrelease]
  refine ⟨⟨h.inside, fun j hj m hjm => h.slot j hj m (hslots j m hjm).2,
    fun j hj k hk m hjm hkm => h.same j hj k hk m (hslots j m hjm).2 (hslots k m hkm).2,
    h.fresh, ?_, ?_, ?_⟩, ⟨fun j => ?_, rfl, rfl, rfl⟩⟩
  · intro m hm
    by_cases hmn : m = n
    · exact absurd (hmn ▸ hm) hself
    · rw [hnodes m hmn]
      exact h.filled m ((hother m hmn).mp hm)
  · intro m hm hhandles
    by_cases hmn : m = n
    · subst hmn
      have hpos : 0 < st.handles m := hhandles
      rw [if_neg (by omega)] at hnode
      rw [hat]
      refine ⟨hnode.1, hnode.2.trans ?_⟩
      exact congrArg Int.ofNat (show 1 + st.handles m - 1 = st.handles m by omega)
    · rw [hnodes m hmn]
      exact h.handled m (fun hs => hm ((hother m hmn).mpr hs)) hhandles
  · intro m hm hslot hhandles
    by_cases hmn : m = n
    · subst hmn
      have hzero : st.handles m = 0 := hhandles
      rw [if_pos (by omega)] at hnode
      rwa [hat]
    · rw [hnodes m hmn]
      exact h.gone m hm (fun hs => hslot ((hother m hmn).mpr hs)) hhandles
  · by_cases hji : j = i
    · exact Or.inr (if_pos hji)
    · exact Or.inl (if_neg hji)

theorem checkSlot_inv (hi : i < mscDevices) :
    MscInv (checkSlot st i) ∧ Checked st (checkSlot st i) := by
  simp only [checkSlot, st.touch_eq hi]
  cases hn : st.array i with
  | none => exact ⟨h, Checked.refl st⟩
  | some n =>
    dsimp only
    by_cases hchanged : st.changed (st.nodes n).usb = true
    · rw [if_pos hchanged]
      exact h.drop hi hn
    · rw [if_neg hchanged]
      exact ⟨h, Checked.refl st⟩

theorem checkMediaChanged_inv :
    MscInv (checkMediaChanged st) ∧ Checked st (checkMediaChanged st) := by
  have hgen : ∀ (is : List Nat) (st : MscDir), (∀ i ∈ is, i < mscDevices) → MscInv st →
      MscInv (is.foldl checkSlot st) ∧ Checked st (is.foldl checkSlot st) := by
    intro is
    induction is with
    | nil => exact fun st _ h => ⟨h, Checked.refl st⟩
    | cons i is ih =>
      intro st his h
      obtain ⟨hinv, hchecked⟩ := checkSlot_inv h (his i List.mem_cons_self)
      obtain ⟨hinv', hchecked'⟩ := ih _ (fun j hj => his j (.tail i hj)) hinv
      exact ⟨hinv', hchecked.trans hchecked'⟩
  exact hgen _ st (fun i hi => List.mem_range.mp hi) h

theorem MscInv.touch (hn : n < st.next) (harray : st'.array = st.array) (hnext : st'.next = st.next)
    (houtside : st'.outside = false) (hnodes : ∀ m, m ≠ n → st'.nodes m = st.nodes m)
    (hhandles : ∀ m, m ≠ n → st'.handles m = st.handles m)
    (hslot : InSlot st n → (st'.nodes n).freed = 0 ∧ (st'.nodes n).count = 1 + st'.handles n)
    (hleft : ¬ InSlot st n → if st'.handles n = 0 then (st'.nodes n).freed = 1 else (st'.nodes n).freed = 0 ∧ (st'.nodes n).count = st'.handles n) :
    MscInv st' := by
  have hin : ∀ m, InSlot st' m ↔ InSlot st m := by
    intro m
    rw [InSlot, InSlot, harray]
  refine ⟨houtside, ?_, ?_, ?_, ?_, ?_, ?_⟩
  · rw [harray, hnext]
    exact h.slot
  · rw [harray]
    exact h.same
  · intro m hm
    rw [hnext] at hm
    rw [hhandles m (by omega)]
    exact h.fresh m hm
  · intro m hm
    by_cases hmn : m = n
    · subst hmn
      exact hslot ((hin m).mp hm)
    · rw [hnodes m hmn, hhandles m hmn]
      exact h.filled m ((hin m).mp hm)
  · intro m hm hpos
    rw [hin] at hm
    by_cases hmn : m = n
    · subst hmn
      have hif := hleft hm
      rw [if_neg (by omega)] at hif
      exact hif
    · rw [hhandles m hmn] at hpos ⊢
      rw [hnodes m hmn]
      exact h.handled m hm hpos
  · intro m hm hout hzero
    rw [hin] at hout
    rw [hnext] at hm
    by_cases hmn : m = n
    · subst hmn
      have hif := hleft hout
      rw [if_pos hzero] at hif
      exact hif
    · rw [hhandles m hmn] at hzero
      rw [hnodes m hmn]
      exact h.gone m hm hout hzero

theorem MscInv.release (hn : 0 < st.handles n) :
    MscInv (mscRelease (st.setHandles n (st.handles n - 1)) n) := by
  have hnext : n < st.next := by
    by_contra hge
    have := h.fresh n (by omega)
    omega
  have hat : (st.setHandles n (st.handles n - 1)).handles n = st.handles n - 1 := if_pos rfl
  have hother : ∀ m, m ≠ n →
      (st.setHandles n (st.handles n - 1)).handles m = st.handles m := fun m hm => if_neg hm
  by_cases hslot : InSlot st n
  · obtain ⟨hfreed, hcount⟩ := h.filled n hslot
    obtain ⟨node, hrelease, hnode⟩ :=
      @mscRelease_node (st.setHandles n (st.handles n - 1)) n (1 + st.handles n) (by omega)
        (by exact hcount) hfreed
    rw [if_neg (by omega)] at hnode
    rw [hrelease]
    refine h.touch hnext rfl rfl h.inside (fun m hm => if_neg hm) hother (fun _ => ?_)
      (fun hout => absurd hslot hout)
    rw [MscDir.setNode_at]
    show _ ∧ node.count = 1 + ((st.setHandles n (st.handles n - 1)).handles n : Int)
    rw [hat, hnode.1, hnode.2]
    omega
  · obtain ⟨hfreed, hcount⟩ := h.handled n hslot hn
    obtain ⟨node, hrelease, hnode⟩ :=
      @mscRelease_node (st.setHandles n (st.handles n - 1)) n (st.handles n) hn hcount hfreed
    rw [hrelease]
    refine h.touch hnext rfl rfl h.inside (fun m hm => if_neg hm) hother
      (fun hin => absurd hin hslot) (fun _ => ?_)
    rw [MscDir.setNode_at]
    show if (st.setHandles n (st.handles n - 1)).handles n = 0 then _ else
      _ ∧ node.count = ((st.setHandles n (st.handles n - 1)).handles n : Int)
    rw [hat]
    by_cases hlast : st.handles n = 1
    · rw [if_pos hlast] at hnode
      rw [if_pos (by omega)]
      exact hnode
    · rw [if_neg hlast] at hnode
      rwa [if_neg (by omega)]

end

/-! ## Opening -/

theorem name_byte {c : UInt8} (hlo : ¬ c < 0x30) (hhi : ¬ (0x36 : UInt8) < c) :
    c.toNat - 0x30 ≤ 6 ∧ c = UInt8.ofNat (0x30 + (c.toNat - 0x30)) := by
  rw [UInt8.lt_iff_toNat_lt] at hlo hhi
  have h30 : (0x30 : UInt8).toNat = 0x30 := rfl
  have h36 : (0x36 : UInt8).toNat = 0x36 := rfl
  refine ⟨by omega, ?_⟩
  rw [show 0x30 + (c.toNat - 0x30) = c.toNat by omega, UInt8.ofNat_toNat]

theorem slot_byte (hi : i ≤ 6) : (UInt8.ofNat (0x30 + i)).toNat = 0x30 + i := by
  exact Nat.mod_eq_of_lt (by omega)

theorem mscOpen_slot (hi : i ≤ 6) : mscOpen st [UInt8.ofNat (0x30 + i)] false =
    match (checkMediaChanged st).array i with
    | some n =>
      (.node n, ((checkMediaChanged st).touch i).setNode n
        { (checkMediaChanged st).nodes n with
          count := incrementCount ((checkMediaChanged st).nodes n).count })
    | none => (.name, (checkMediaChanged st).touch i) := by
  have hbyte := @slot_byte i hi
  rw [mscOpen]
  rw [if_neg, if_neg Bool.false_ne_true]
  · rewrite [hbyte, show 0x30 + i - 0x30 = i by omega]
    cases harr : (checkMediaChanged st).array i <;> simp only [MscDir.touch, harr]
  · rw [UInt8.lt_iff_toNat_lt, UInt8.lt_iff_toNat_lt, hbyte]
    have h30 : (0x30 : UInt8).toNat = 0x30 := rfl
    have h36 : (0x36 : UInt8).toNat = 0x36 := rfl
    omega

theorem mscOpen_cases (st : MscDir) (name : List UInt8) (exclusive : Bool) :
    (exclusive = false ∧ ∃ i ≤ 6, name = [UInt8.ofNat (0x30 + i)]) ∨
      (mscOpen st name exclusive).2 = st ∧ ∀ n, (mscOpen st name exclusive).1 ≠ .node n := by
  unfold mscOpen
  split
  · next c =>
      by_cases hrange : c < 0x30 ∨ 0x36 < c
      · rw [if_pos hrange]
        simp
      rw [if_neg hrange]
      rw [not_or] at hrange
      cases exclusive with
      | true =>
        exact Or.inr ⟨rfl, fun n hn => by cases hn⟩
      | false =>
        obtain ⟨hle, hc⟩ := name_byte hrange.1 hrange.2
        exact Or.inl ⟨rfl, c.toNat - 0x30, hle, by rw [← hc]⟩
  · simp

theorem MscInv.next_lt (h : MscInv st) (hi : i < mscDevices) (hn : st.array i = some n) :
    n < st.next := (h.slot i hi n hn).1

theorem MscInv.open (h : MscInv st) (name : List UInt8) (exclusive : Bool)
    (hallowed : Allowed st (.open name exclusive)) :
    MscInv (mscExec st (.open name exclusive)) := by
  rcases mscOpen_cases st name exclusive with ⟨rfl, i, hi, rfl⟩ | ⟨hst, hres⟩
  · obtain ⟨hname, hroom⟩ := hallowed rfl
    have hi6 : i < mscDevices := by
      by_contra hge
      rw [mscDevices] at hge
      exact hname (by rw [show i = 6 by omega]; rfl)
    obtain ⟨hinv, hchecked⟩ := checkMediaChanged_inv h
    rw [mscExec, mscOpen_slot hi, MscDir.touch_eq _ hi6]
    cases hn : (checkMediaChanged st).array i with
    | none => exact hinv
    | some n =>
      have hin : InSlot (checkMediaChanged st) n := ⟨i, hi6, hn⟩
      obtain ⟨hfreed, hcount⟩ := hinv.filled n hin
      have hbefore : st.array i = some n := by
        rcases hchecked.array i with heq | heq
        · exact heq.symm.trans hn
        · rw [hn] at heq
          cases heq
      have hbound := hroom i hi6 n rfl hbefore
      rw [← hchecked.handles] at hbound
      refine hinv.touch (hinv.next_lt hi6 hn) rfl rfl hinv.inside (fun m hm => if_neg hm)
        (fun m hm => if_neg hm) (fun _ => ?_) (fun hout => absurd hin hout)
      rw [MscDir.setHandles_at]
      simp only [MscDir.setHandles, MscDir.setNode_at]
      rw [hcount, incrementCount, if_pos ⟨by omega, by omega⟩]
      simp only [MscDir.setNode]
      omega
  · rw [mscExec]
    split
    · next n st' heq =>
        rw [heq] at hres
        exact absurd rfl (hres n)
    next r st' _ heq =>
      rw [heq] at hst
      have hst : st' = st := hst
      rwa [hst]

/-- The new node is in the slot `j`. -/
def MscDir.attached (st : MscDir) (usb j : Nat) : MscDir :=
  { (st.setNode st.next ⟨1, usb, 0⟩).setSlot j (some st.next) with next := st.next + 1 }

theorem attachLoop_spec (usb : Nat) (mem : Bool) (st : MscDir) : ∀ left i, i + left ≤ mscDevices →
    attachLoop usb mem left i st = st ∨ ∃ j, i ≤ j ∧ j < i + left ∧ mem = true ∧
      (∀ k, i ≤ k → k < j → st.array k ≠ none) ∧ st.array j = none ∧
      attachLoop usb mem left i st = st.attached usb j := by
  intro left
  induction left with
  | zero => exact fun i _ => Or.inl rfl
  | succ left ih =>
    intro i hleft
    rw [attachLoop, st.touch_eq (by omega)]
    dsimp only
    by_cases hused : st.array i ≠ none
    · rw [if_pos hused]
      rcases ih (i + 1) (by omega) with heq | ⟨j, hij, hj, hmem, hfirst, hfree, heq⟩
      · exact Or.inl heq
      · refine Or.inr ⟨j, by omega, by omega, hmem, fun k hik hkj => ?_, hfree, heq⟩
        by_cases hk : k = i
        · exact hk ▸ hused
        · exact hfirst k (by omega) hkj
    · rw [if_neg hused]
      cases mem with
      | false =>
        exact Or.inl rfl
      | true =>
        refine Or.inr ⟨i, le_refl i, by omega, rfl, fun k hik hki => absurd hik (by omega),
          not_not.mp hused, rfl⟩

theorem MscInv.attach (h : MscInv st) (usb : Nat) (mem : Bool)
    (hallowed : Allowed st (.attach usb mem)) : MscInv (mscAttach st usb mem) := by
  obtain ⟨hinv, -⟩ := checkMediaChanged_inv h
  rw [mscAttach]
  rcases attachLoop_spec usb mem (checkMediaChanged st) mscDevices 0 le_rfl with
    heq | ⟨j, -, hj, hmem, hfirst, hfree, heq⟩
  · rwa [heq]
  obtain ⟨l, hl, hlfree⟩ := hallowed hmem
  have hj4 : j < 4 := by
    by_contra hge
    exact hfirst l (by omega) (by omega) hlfree
  rw [heq]
  generalize checkMediaChanged st = st at hinv hfree
  -- the new node is at no other slot
  have hold : ∀ k m, k ≠ j → (st.attached usb j).array k = some m → st.array k = some m := by
    intro k m hk hkm
    simp only [MscDir.attached, MscDir.setSlot] at hkm
    rwa [if_neg hk] at hkm
  have hnew : (st.attached usb j).array j = some st.next := if_pos rfl
  have hslots : ∀ k < mscDevices, ∀ m, (st.attached usb j).array k = some m →
      (k = j ∧ m = st.next) ∨ (k ≠ j ∧ st.array k = some m ∧ m < st.next) := by
    intro k hk m hkm
    by_cases hkj : k = j
    · subst hkj
      exact Or.inl ⟨rfl, some.inj (hkm.symm.trans hnew)⟩
    · have hkm' := hold k m hkj hkm
      exact Or.inr ⟨hkj, hkm', hinv.next_lt hk hkm'⟩
  have hin : ∀ m, m ≠ st.next → (InSlot (st.attached usb j) m ↔ InSlot st m) := by
    intro m hm
    constructor
    · rintro ⟨k, hk, hkm⟩
      rcases hslots k hk m hkm with ⟨-, hmn⟩ | ⟨-, hkm', -⟩
      · omega
      · exact ⟨k, hk, hkm'⟩
    rintro ⟨k, hk, hkm⟩
    have hkj : k ≠ j := by
      rintro rfl
      rw [hfree] at hkm
      cases hkm
    exact ⟨k, hk, (if_neg hkj).trans hkm⟩
  have hself : InSlot (st.attached usb j) st.next := ⟨j, by omega, hnew⟩
  have hnodes : ∀ m, m ≠ st.next → (st.attached usb j).nodes m = st.nodes m := fun m hm => if_neg hm
  have hnode : (st.attached usb j).nodes st.next = ⟨1, usb, 0⟩ := if_pos rfl
  refine ⟨hinv.inside, ?_, ?_, ?_, ?_, ?_, ?_⟩
  · intro k hk m hkm
    rcases hslots k hk m hkm with ⟨rfl, rfl⟩ | ⟨-, hkm', hlt⟩
    · exact ⟨Nat.lt_succ_self _, hj4⟩
    · exact ⟨Nat.lt_succ_of_lt hlt, (hinv.slot k hk m hkm').2⟩
  · intro k hk k' hk' m hkm hkm'
    rcases hslots k hk m hkm with ⟨rfl, rfl⟩ | ⟨-, hold, hlt⟩
    · rcases hslots k' hk' _ hkm' with ⟨rfl, -⟩ | ⟨-, -, hlt⟩
      · rfl
      · omega
    · rcases hslots k' hk' _ hkm' with ⟨-, rfl⟩ | ⟨-, hold', -⟩
      · exact absurd hlt (lt_irrefl _)
      · exact hinv.same k hk k' hk' m hold hold'
  · intro m hm
    have hm : st.next + 1 ≤ m := hm
    exact hinv.fresh m (by omega)
  · intro m hm
    by_cases hmn : m = st.next
    · subst hmn
      have hzero : st.handles st.next = 0 := hinv.fresh _ le_rfl
      rw [hnode]
      refine ⟨rfl, ?_⟩
      show (1 : Int) = 1 + ((st.handles st.next : Nat) : Int)
      rw [hzero]
      rfl
    · have hfilled := hinv.filled m ((hin m hmn).mp hm)
      rw [← hnodes m hmn] at hfilled
      exact hfilled
  · intro m hm hpos
    by_cases hmn : m = st.next
    · exact absurd (hmn ▸ hself) hm
    · have hhandled := hinv.handled m (fun hs => hm ((hin m hmn).mpr hs)) hpos
      rw [← hnodes m hmn] at hhandled
      exact hhandled
  · intro m hm hout hzero
    by_cases hmn : m = st.next
    · exact absurd (hmn ▸ hself) hout
    · have hm : m < st.next + 1 := hm
      have hgone := hinv.gone m (by omega) (fun hs => hout ((hin m hmn).mpr hs)) hzero
      rw [← hnodes m hmn] at hgone
      exact hgone

theorem MscInv.initial (behind : Nat → Option Nat) (changed : Nat → Bool)
    (nodes : Nat → MscNode) : MscInv (MscDir.initial behind changed nodes) := by
  have hempty : ∀ i < mscDevices, (MscDir.initial behind changed nodes).array i = none :=
    fun i hi => if_pos hi
  have hout : ∀ n, ¬ InSlot (MscDir.initial behind changed nodes) n := by
    rintro n ⟨i, hi, hn⟩
    rw [hempty i hi] at hn
    cases hn
  refine ⟨rfl, ?_, ?_, fun n _ => rfl, fun n hn => absurd hn (hout n),
    fun n _ hpos => absurd hpos (Nat.lt_irrefl 0), fun n hn => absurd hn (Nat.not_lt_zero n)⟩
  · intro i hi n hn
    exact absurd ⟨i, hi, hn⟩ (hout n)
  · intro i hi j hj n hn
    exact absurd ⟨i, hi, hn⟩ (hout n)

theorem mscReaddir_state (st : MscDir) (offset : Nat) :
    (mscReaddir st offset).2 = st ∨ (mscReaddir st offset).2 = checkMediaChanged st := by
  rw [mscReaddir]
  by_cases h0 : offset = 0
  · rw [if_pos h0]
    exact Or.inl rfl
  rw [if_neg h0]
  by_cases h1 : offset = 1
  · rw [if_pos h1]
    exact Or.inl rfl
  rw [if_neg h1]
  by_cases h6 : offset < 6
  · rw [if_pos h6, MscDir.touch_eq _ (by unfold mscDevices; omega)]
    dsimp only
    split
    · exact Or.inr rfl
    · exact Or.inr rfl
  · rw [if_neg h6]
    exact Or.inl rfl

theorem MscInv.step {op : MscOp} (h : MscInv st) (hstep : Guarded Allowed MscStep st op st') :
    MscInv st' := by
  obtain ⟨hallowed, hopen, rfl⟩ := hstep
  cases op with
  | attach usb mem => exact h.attach usb mem hallowed
  | change changed =>
    exact ⟨h.inside, h.slot, h.same, h.fresh, h.filled, h.handled, h.gone⟩
  | «open» name exclusive => exact h.open name exclusive hallowed
  | readdir offset =>
    rw [mscExec]
    rcases mscReaddir_state st offset with heq | heq
    · rwa [heq]
    · rw [heq]
      exact (checkMediaChanged_inv h).1
  | release n => exact h.release (hopen n rfl)

theorem MscInv.run {ops : List MscOp} (h : MscInv st)
    (hrun : Run (Guarded Allowed MscStep) st ops st') : MscInv st' :=
  hrun.invariant (fun _ _ _ hinv hstep => hinv.step hstep) h

/-! ## What the directory shows -/

theorem mscReaddir_slot (hi : i < 4) (hn : (checkMediaChanged st).array i = some n) :
    (mscReaddir st (i + 2)).1 = .entry [UInt8.ofNat (0x30 + i)] := by
  rw [mscReaddir, if_neg (by omega), if_neg (by omega), if_pos (by omega)]
  simp only [show i + 2 - 2 = i by omega, MscDir.touch, hn]

theorem MscInv.listed (h : MscInv st) {name : List UInt8} (hname : name ≠ [0x36]) :
    Listed st name n ↔ (mscOpen st name false).1 = .node n := by
  constructor
  · rintro ⟨i, -, hi, rfl, hn, -⟩
    have hi6 : i < 6 := hi
    rw [mscOpen_slot (by omega), hn]
  intro hopen
  rcases mscOpen_cases st name false with ⟨-, i, hi, rfl⟩ | ⟨-, hres⟩
  · have hi6 : i < mscDevices := by
      by_contra hge
      rw [mscDevices] at hge
      exact hname (by rw [show i = 6 by omega]; rfl)
    rw [mscOpen_slot hi] at hopen
    cases hn : (checkMediaChanged st).array i with
    | none =>
      rw [hn] at hopen
      cases hopen
    | some m =>
      rw [hn] at hopen
      obtain rfl : m = n := MscOpened.node.inj hopen
      have hi4 := ((checkMediaChanged_inv h).1.slot i hi6 m hn).2
      exact ⟨i, i + 2, hi6, rfl, hn, mscReaddir_slot hi4 hn⟩
  · exact absurd hopen (hres n)

theorem MscInv.sound (h : MscInv st) : MscSound st where
  inside := h.inside
  listed name n hname := h.listed hname
  slot i hi n hn := h.filled n ⟨i, hi, hn⟩
  freed n hn := by
    by_cases hslot : InSlot st n
    · obtain ⟨i, hi, hin⟩ := hslot
      rw [if_neg (fun hout => hout.2 i hi hin)]
      exact (h.filled n ⟨i, hi, hin⟩).1
    have hnone : ∀ i < mscDevices, st.array i ≠ some n := fun i hi hin => hslot ⟨i, hi, hin⟩
    by_cases hzero : st.handles n = 0
    · rw [if_pos ⟨hzero, hnone⟩]
      exact h.gone n hn hslot hzero
    · rw [if_neg (fun hout => hzero hout.1)]
      exact (h.handled n hslot (by omega)).1

/-- In every run whose steps are allowed the slots are read inside of the array,
a name opens what is listed under it, and the counts are right. -/
theorem mscDir_run_sound (behind : Nat → Option Nat) (changed : Nat → Bool)
    (nodes : Nat → MscNode) (ops : List MscOp)
    (hrun : Run (Guarded Allowed MscStep) (MscDir.initial behind changed nodes) ops st) :
    MscSound st :=
  ((MscInv.initial behind changed nodes).run hrun).sound

theorem mscStep_attach (st : MscDir) (usb : Nat) (mem : Bool) :
    MscStep st (.attach usb mem) (mscExec st (.attach usb mem)) :=
  ⟨fun n hn => (by cases hn), rfl⟩

theorem mscStep_open (st : MscDir) (name : List UInt8) (exclusive : Bool) :
    MscStep st (.open name exclusive) (mscExec st (.open name exclusive)) :=
  ⟨fun n hn => (by cases hn), rfl⟩

def mscEmpty : MscDir :=
  MscDir.initial (fun _ => none) (fun _ => false) (fun _ => ⟨0, 0, 0⟩)

/-- A device is attached and opened. -/
theorem mscDir_run_sound_open :
    MscSound (mscExec (mscExec mscEmpty (.attach 5 true)) (.open [0x30] false)) := by
  have hattach : Allowed mscEmpty (.attach 5 true) := fun _ => ⟨0, by decide, rfl⟩
  have hopen : Allowed (mscExec mscEmpty (.attach 5 true)) (.open [0x30] false) := by
    refine fun _ => ⟨by decide, fun i hi n hname hn => ?_⟩
    show (0 : Int) + 1 < INT_MAX
    decide
  have hrun : Run (Guarded Allowed MscStep) mscEmpty
      ([] ++ [.attach 5 true] ++ [.open [0x30] false])
      (mscExec (mscExec mscEmpty (.attach 5 true)) (.open [0x30] false)) :=
    .snoc (.snoc (.nil _) ⟨hattach, mscStep_attach _ 5 true⟩)
      ⟨hopen, mscStep_open _ [0x30] false⟩
  exact mscDir_run_sound (fun _ => none) (fun _ => false) (fun _ => ⟨0, 0, 0⟩) _ hrun

theorem mscReaddir_entry {offset : Nat} {name : List UInt8}
    (h : (mscReaddir st offset).1 = .entry name) :
    name = [0x2E] ∨ name = [0x2E, 0x2E] ∨ name = [] ∨
      ∃ i < 4, name = [UInt8.ofNat (0x30 + i)] := by
  rw [mscReaddir] at h
  by_cases h0 : offset = 0
  · rw [if_pos h0] at h
    exact Or.inl (MscListed.entry.inj h).symm
  rw [if_neg h0] at h
  by_cases h1 : offset = 1
  · rw [if_pos h1] at h
    exact Or.inr (Or.inl (MscListed.entry.inj h).symm)
  rw [if_neg h1] at h
  by_cases h6 : offset < 6
  · rw [if_pos h6] at h
    dsimp only at h
    split at h
    · exact Or.inr (Or.inr (Or.inr ⟨offset - 2, by omega, (MscListed.entry.inj h).symm⟩))
    · cases h
  · rw [if_neg h6] at h
    exact Or.inr (Or.inr (Or.inl (MscListed.entry.inj h).symm))

def mscFive : MscDir :=
  [1, 2, 3, 4, 5].foldl (fun st usb => mscExec st (.attach usb true)) mscEmpty

theorem mscFive_run : Run MscStep mscEmpty
    ([] ++ [.attach 1 true] ++ [.attach 2 true] ++ [.attach 3 true] ++ [.attach 4 true] ++
      [.attach 5 true]) mscFive :=
  .snoc (.snoc (.snoc (.snoc (.snoc (.nil _) (mscStep_attach _ 1 true))
    (mscStep_attach _ 2 true)) (mscStep_attach _ 3 true)) (mscStep_attach _ 4 true))
    (mscStep_attach _ 5 true)

/-- The name behind the last slot reads outside of the array, and the fifth
device is opened and not listed. -/
theorem mscDir_run_unsound :
    (¬ ∀ ops st, Run MscStep mscEmpty ops st → st.outside = false) ∧
      ¬ ∀ ops st name n, Run MscStep mscEmpty ops st →
        (Listed st name n ↔ (mscOpen st name false).1 = .node n) := by
  constructor
  · intro h
    have hopen : Run MscStep mscEmpty ([] ++ [.open [0x36] false])
        (mscExec mscEmpty (.open [0x36] false)) :=
      .snoc (.nil _) (mscStep_open _ [0x36] false)
    exact Bool.false_ne_true ((h _ _ hopen).symm.trans (by decide +kernel))
  intro h
  obtain ⟨i, offset, -, -, -, hentry⟩ :=
    (h _ mscFive [0x34] 4 mscFive_run).mpr (by decide +kernel)
  rcases mscReaddir_entry hentry with hdot | hdot | hend | ⟨j, hj, hname⟩
  · exact absurd hdot (by decide)
  · exact absurd hdot (by decide)
  · exact absurd hend (by decide)
  · have hbyte := congrArg UInt8.toNat (List.cons.inj hname).1
    rw [slot_byte (by omega)] at hbyte
    have h34 : (0x34 : UInt8).toNat = 0x34 := rfl
    omega

end Dancy.Usb
