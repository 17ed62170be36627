import Dancy.Lib.Run

/-!
# Receiving with the e1000

The controller fills the descriptors of a ring, the receive task takes one
after the other and offers its frame, and `n_read` copies what is offered.
The task waits without a limit (`0xFFFF`) until its frame has been copied.
-/

namespace Dancy.Network

open Dancy.Lib List Function Option

/-- A descriptor and the buffer that it points to. -/
structure Frame where
  (size status errors : Nat)
  data : Nat → UInt8

def Frame.bytes (f : Frame) : List UInt8 := (range f.size).map f.data

def Frame.Good (f : Frame) : Prop := f.errors &&& 0x87 = 0 ∧ 14 ≤ f.size ∧ f.size ≤ 1984

instance (f : Frame) : Decidable f.Good := inferInstanceAs (Decidable (_ ∧ _ ∧ _))

/-- Where `e1000_task` is; `wait` is in `event_wait`, with `r` still `DE_RETRY` or not. -/
inductive Pc
  | poll
  | offer (i size : Nat)
  | wait (i size : Nat) (retry : Bool)
  | clear (i : Nat)
  | give (i : Nat)

/-- The registers and the ring, the variables of the driver, and what has
happened: the frames completed, the number taken from the ring and the reads. -/
structure E1000 where
  rdh : Nat := 0
  rdt : Nat := 511
  slots : Nat → Frame
  rxHead : Nat := 0
  pc : Pc := .poll
  rxFrame : Option Nat := none
  rxFrameSize : Nat := 0
  event : Bool := false
  completed : List Frame := []
  taken : Nat := 0
  reads : List (List UInt8) := []

def E1000.complete (s : E1000) (f : Frame) : E1000 :=
  { s with
    rdh := (s.rdh + 1) % 512
    slots := update s.slots s.rdh f
    completed := s.completed ++ [f] }

/-- The next step of `e1000_task`. -/
def E1000.task (s : E1000) : E1000 :=
  match s.pc with
  | .poll =>
      let i := s.rxHead
      if s.rdh = i then s
      else
        let f := s.slots i
        let size := if f.status &&& 0x01 = 0 ∨ f.errors &&& 0x87 ≠ 0 then 0 else f.size
        { s with
          rxHead := if i + 1 > 511 then 0 else i + 1
          pc := if size ≥ 14 ∧ size ≤ 1984 then .offer i size else .clear i
          taken := s.taken + 1 }
  | .offer i size =>
      match s.rxFrame with
      | none => { s with rxFrame := some i, rxFrameSize := size, pc := .wait i size false }
      | some _ => { s with pc := .wait i size true }
  | .wait i size retry =>
      if s.event then { s with event := false, pc := if retry then .offer i size else .clear i }
      else s
  | .clear i => { s with slots := update s.slots i ⟨0, 0, 0, fun _ => 0⟩, pc := .give i }
  | .give i => { s with rdt := i, pc := .poll }

/-- `n_read` with an aligned buffer. -/
def E1000.read (s : E1000) : E1000 :=
  match s.rxFrame with
  | none => s
  | some i =>
      { s with
        reads := s.reads ++ [(range s.rxFrameSize).map (s.slots i).data]
        rxFrame := none
        rxFrameSize := 0
        event := true }

inductive Action
  | complete (f : Frame)
  | task
  | read

/-- The controller fills descriptors that it owns and marks them as done. -/
inductive Step : E1000 → Action → E1000 → Prop
  | complete {s f} : s.rdh ≠ s.rdt → f.status &&& 0x01 ≠ 0 → Step s (.complete f) (s.complete f)
  | task (s) : Step s .task s.task
  | read (s) : Step s .read s.read

/-! ## The invariant -/

/-- What the reads of the first `n` frames give. -/
def delivered (completed : List Frame) (n : Nat) : List (List UInt8) :=
  ((completed.take n).filter fun f => f.Good).map Frame.bytes

/-- The number of descriptors that have been given back. -/
def E1000.given (s : E1000) : Nat :=
  match s.pc with
  | .poll => s.taken
  | _ => s.taken - 1

/-- The frame that the task is at has not been cleared. -/
def Pc.Holds : Pc → Prop
  | .poll | .give _ => False
  | _ => True

/-- What the task, the slot for the frame and the event agree on. -/
def E1000.Agrees (s : E1000) : Prop :=
  match s.pc with
  | .poll => s.rxFrame = none ∧ s.event = false ∧ s.reads = delivered s.completed s.taken
  | .offer i size => s.taken = s.taken - 1 + 1 ∧ i = (s.taken - 1) % 512 ∧ size = (s.slots i).size ∧
      s.rxFrame = none ∧ s.event = false ∧
      s.reads ++ [(s.slots i).bytes] = delivered s.completed s.taken
  | .wait i _ retry => s.taken = s.taken - 1 + 1 ∧ i = (s.taken - 1) % 512 ∧ retry = false ∧
      (s.rxFrame = some i ∧ s.rxFrameSize = (s.slots i).size ∧ s.event = false ∧
        s.reads ++ [(s.slots i).bytes] = delivered s.completed s.taken ∨
      s.rxFrame = none ∧ s.event = true ∧ s.reads = delivered s.completed s.taken)
  | .clear i | .give i => s.taken = s.taken - 1 + 1 ∧ i = (s.taken - 1) % 512 ∧
      s.rxFrame = none ∧ s.event = false ∧ s.reads = delivered s.completed s.taken

/-- The registers and the slots follow from the frames completed and given. -/
structure Inv (s : E1000) : Prop where
  rdh : s.rdh = s.completed.length % 512
  rdt : s.rdt = (511 + s.given) % 512
  head : s.rxHead = s.taken % 512
  taken : s.taken ≤ s.completed.length
  owned : s.completed.length ≤ 511 + s.given
  done : ∀ f ∈ s.completed, f.status &&& 0x01 ≠ 0
  slots : ∀ k f, s.completed[k]? = some f → s.taken ≤ k ∨ s.pc.Holds ∧ s.taken = k + 1 →
    s.slots (k % 512) = f
  agrees : s.Agrees

variable {s : E1000}

theorem delivered_append {completed : List Frame} {n : Nat} (h : n ≤ completed.length) (f : Frame) :
    delivered (completed ++ [f]) n = delivered completed n := by
  rw [delivered, take_append_of_le_length h, delivered]

theorem delivered_succ {completed : List Frame} {n : Nat} {f : Frame}
    (h : completed[n]? = some f) : delivered completed (n + 1) =
      if f.Good then delivered completed n ++ [f.bytes] else delivered completed n := by
  rw [delivered, take_add_one, h, Option.toList_some, filter_append, map_append]
  by_cases hgood : f.Good <;> simp [delivered, hgood]

theorem given_of_holds (h : s.pc.Holds) : s.given = s.taken - 1 := by
  unfold E1000.given
  split
  · rename_i hp
    rw [hp] at h
    exact h.elim
  · rfl

/-- A frame that is completed goes to a slot that holds none of the others. -/
theorem Inv.complete (h : Inv s) (hown : s.rdh ≠ s.rdt) {f : Frame}
    (hdone : f.status &&& 0x01 ≠ 0) : Inv (s.complete f) := by
  have hroom : s.completed.length < 511 + s.given := by
    refine Nat.lt_of_le_of_ne h.owned fun heq => hown ?_
    rw [h.rdh, h.rdt, heq]
  have hgiven : s.given ≤ s.taken ∧ s.taken ≤ s.given + 1 := by
    unfold E1000.given
    split <;> omega
  have hother : ∀ k, s.given ≤ k → k < s.completed.length →
      (s.complete f).slots (k % 512) = s.slots (k % 512) := by
    intro k hlo hhi
    refine update_of_ne ?_ ..
    rw [h.rdh]
    omega
  have hlen := h.taken
  have hpc : (s.complete f).pc = s.pc := rfl
  refine ⟨?_, h.rdt, h.head, ?_, ?_, ?_, ?_, ?_⟩
  · simp [E1000.complete, h.rdh]
  · simp only [E1000.complete, length_append, length_singleton]
    omega
  · show (s.completed ++ [f]).length ≤ 511 + s.given
    rw [length_append, length_singleton]
    omega
  · exact fun g hg => (mem_append.mp hg).elim (h.done g) fun hg =>
      mem_singleton.mp hg ▸ hdone
  · intro k g hg hk
    rcases Nat.lt_trichotomy k s.completed.length with hlt | rfl | hlt
    · rw [hother k ?_ hlt]
      · exact h.slots k g (by rwa [E1000.complete, getElem?_append_left hlt] at hg) hk
      · rcases hk with hk | ⟨hholds, hk⟩
        · exact le_trans hgiven.1 hk
        · have hk : s.taken = k + 1 := hk
          have hgiven : s.given = s.taken - 1 := given_of_holds hholds
          omega
    · rw [E1000.complete, getElem?_concat_length] at hg
      cases hg
      rw [E1000.complete, ← h.rdh]
      simp
    · rw [E1000.complete, getElem?_eq_none (by simp; omega)] at hg
      cases hg
  · have hagrees := h.agrees
    have hkept : ∀ i, s.taken = s.taken - 1 + 1 → i = (s.taken - 1) % 512 → s.pc.Holds →
        (s.complete f).slots i = s.slots i := by
      intro i hpos hi hholds
      rw [hi]
      exact hother _ (given_of_holds hholds ▸ le_rfl) (by omega)
    unfold E1000.Agrees at hagrees ⊢
    rw [hpc]
    cases hcase : s.pc with
    | poll =>
      rw [hcase] at hagrees
      simpa [E1000.complete, delivered_append hlen] using hagrees
    | offer i size | wait i size retry =>
      rw [hcase] at hagrees
      simp only [hkept i hagrees.1 hagrees.2.1 (by rw [hcase]; trivial)]
      simpa [E1000.complete, delivered_append hlen] using hagrees
    | clear i | give i =>
      rw [hcase] at hagrees
      simpa [E1000.complete, delivered_append hlen] using hagrees

theorem Inv.read (h : Inv s) : Inv s.read := by
  have hagrees := h.agrees
  unfold E1000.read
  split
  · exact h
  rename_i i hframe
  refine ⟨h.rdh, h.rdt, h.head, h.taken, h.owned, h.done, h.slots, ?_⟩
  unfold E1000.Agrees at hagrees ⊢
  cases hcase : s.pc with
  | wait j size retry =>
    rw [hcase] at hagrees
    obtain ⟨hpos, hi, hretry, ⟨hj, hsize, _, hreads⟩ | ⟨hnone, _⟩⟩ := hagrees
    · obtain rfl : i = j := some.inj (hframe.symm.trans hj)
      refine ⟨hpos, hi, hretry, .inr ⟨rfl, rfl, ?_⟩⟩
      dsimp only
      rwa [hsize]
    · rw [hframe] at hnone
      cases hnone
  | poll =>
    rw [hcase, hframe] at hagrees
    cases hagrees.1
  | offer j size =>
    rw [hcase, hframe] at hagrees
    cases hagrees.2.2.2.1
  | clear j | give j =>
    rw [hcase, hframe] at hagrees
    cases hagrees.2.2.1

theorem Inv.at_frame (h : Inv s) (hpc : s.pc ≠ .poll) :
    s.rdt = (511 + (s.taken - 1)) % 512 ∧ s.completed.length ≤ 511 + (s.taken - 1) := by
  have hgiven : s.given = s.taken - 1 := by
    unfold E1000.given
    split
    · rename_i hp
      exact absurd hp hpc
    · rfl
  exact hgiven ▸ ⟨h.rdt, h.owned⟩

theorem Inv.task (h : Inv s) : Inv s.task := by
  have hagrees := h.agrees
  have hlen := h.taken
  unfold E1000.Agrees at hagrees
  unfold E1000.task
  cases hcase : s.pc with
  | poll =>
    rw [hcase] at hagrees
    have hgiven : s.given = s.taken := by rw [E1000.given, hcase]
    dsimp only
    split
    · exact h
    rename_i hne
    have hnew : s.taken < s.completed.length := by
      refine Nat.lt_of_le_of_ne hlen fun heq => hne ?_
      rw [h.rdh, h.head, heq]
    obtain ⟨f, hf⟩ : ∃ f, s.completed[s.taken]? = some f := ⟨_, getElem?_eq_getElem hnew⟩
    have hslot : s.slots s.rxHead = f := h.head ▸ h.slots s.taken f hf (.inl le_rfl)
    have hdone := h.done f (mem_of_getElem? hf)
    have hhead : (if s.rxHead + 1 > 511 then 0 else s.rxHead + 1) = (s.taken + 1) % 512 := by
      rw [h.head]
      split <;> omega
    have hsucc := delivered_succ hf
    have hgood : ∀ size, size = (if f.status &&& 0x01 = 0 ∨ f.errors &&& 0x87 ≠ 0 then 0
        else f.size) → (size ≥ 14 ∧ size ≤ 1984 ↔ f.Good) ∧ (f.Good → size = f.size) := by
      rintro size rfl
      unfold Frame.Good
      split
      · rename_i hbad
        omega
      · rename_i hok
        rw [not_or, not_not] at hok
        exact ⟨⟨fun h => ⟨hok.2, h⟩, fun h => h.2⟩, fun _ => rfl⟩
    rw [hslot]
    obtain ⟨size, hsize⟩ : ∃ size, size = if f.status &&& 0x01 = 0 ∨ f.errors &&& 0x87 ≠ 0 then 0
      else f.size := ⟨_, rfl⟩
    rw [← hsize, hhead]
    obtain ⟨hiff, heq⟩ := hgood size hsize
    refine ⟨h.rdh, ?_, rfl, hnew, ?_, h.done, ?_, ?_⟩
    · rw [h.rdt, hgiven]
      by_cases hg : f.Good <;> simp [E1000.given, hiff, hg]
    · have := h.owned
      by_cases hg : f.Good <;> simp [E1000.given, hiff, hg] <;> omega
    · intro k g hg hk
      refine h.slots k g hg (.inl ?_)
      rcases hk with hk | ⟨_, hk⟩ <;> simp only at hk <;> omega
    · by_cases hg : f.Good
      · simp only [E1000.Agrees, hiff, hg, if_true, Nat.add_sub_cancel, hsucc, hslot]
        exact ⟨trivial, h.head, heq hg, hagrees.1, hagrees.2.1, by rw [hagrees.2.2]⟩
      · simp only [E1000.Agrees, hiff, hg, if_false, Nat.add_sub_cancel, hsucc]
        exact ⟨trivial, h.head, hagrees⟩
  | offer i size =>
    rw [hcase] at hagrees
    obtain ⟨hpos, hi, hsize, hframe, hevent, hreads⟩ := hagrees
    obtain ⟨hrdt, howned⟩ := h.at_frame (by rw [hcase]; exact nofun)
    simp only [hframe]
    refine ⟨h.rdh, hrdt, h.head, hlen, howned, h.done, fun k g hg hk => ?_,
      hpos, hi, rfl, .inl ⟨rfl, hsize, hevent, hreads⟩⟩
    exact h.slots k g hg (hk.imp_right fun hk => ⟨by rw [hcase]; trivial, hk.2⟩)
  | wait i size retry =>
    rw [hcase] at hagrees
    obtain ⟨hrdt, howned⟩ := h.at_frame (by rw [hcase]; exact nofun)
    dsimp only
    split
    · rename_i hevent
      obtain ⟨hpos, hi, rfl, ⟨_, _, hno, _⟩ | ⟨hframe, _, hreads⟩⟩ := hagrees
      · rw [hevent] at hno
        cases hno
      · refine ⟨h.rdh, hrdt, h.head, hlen, howned, h.done,
          fun k g hg hk => ?_, hpos, hi, hframe, rfl, hreads⟩
        exact h.slots k g hg (hk.imp_right fun hk => ⟨by rw [hcase]; trivial, hk.2⟩)
    · exact h
  | clear i =>
    rw [hcase] at hagrees
    obtain ⟨hrdt, howned⟩ := h.at_frame (by rw [hcase]; exact nofun)
    refine ⟨h.rdh, hrdt, h.head, hlen, howned, h.done, fun k g hg hk => ?_, hagrees⟩
    obtain ⟨hpos, hi, _⟩ := hagrees
    have hk : s.taken ≤ k := hk.resolve_right fun h => h.1
    have hklen : k < s.completed.length := (List.getElem?_eq_some_iff.mp hg).1
    have hne : k % 512 ≠ i := by omega
    exact (update_of_ne hne ..).trans (h.slots k g hg (.inl hk))
  | give i =>
    rw [hcase] at hagrees
    obtain ⟨hpos, hi, hrest⟩ := hagrees
    obtain ⟨_, howned⟩ := h.at_frame (by rw [hcase]; exact nofun)
    refine ⟨h.rdh, ?_, h.head, hlen, ?_, h.done, fun k g hg hk => ?_, hrest⟩
    · show i = (511 + s.taken) % 512
      omega
    · show s.completed.length ≤ 511 + s.taken
      omega
    · exact h.slots k g hg (.inl (hk.resolve_right fun h => h.1))

/-- The driver after `e1000_init`, with whatever the buffers hold. -/
def initial (slots : Nat → Frame) : E1000 := { slots }

theorem initial_inv (slots : Nat → Frame) : Inv (initial slots) :=
  ⟨rfl, rfl, rfl, le_rfl, Nat.zero_le _, fun _ h => (nomatch h), fun _ _ h => (nomatch h),
    rfl, rfl, rfl⟩

/-- The reads are the good frames among those taken from the ring, in the
order of their completion; at most one more is with the task, and what is
offered for the next read is this frame. -/
theorem reads_of_run {slots : Nat → Frame} {as : List Action} {s : E1000}
    (h : Run Step (initial slots) as s) :
    s.taken ≤ s.completed.length ∧ s.completed.length ≤ s.taken + 511 ∧
      s.rxHead = s.taken % 512 ∧ ∃ pending : List (List UInt8), pending.length ≤ 1 ∧
        s.reads ++ pending = delivered s.completed s.taken ∧
        ∀ i, s.rxFrame = some i →
          pending = [(range s.rxFrameSize).map (s.slots i).data] := by
  have hinv : Inv s := h.invariant (fun s a s' hs hstep => by
    cases hstep with
    | complete hown hdone => exact hs.complete hown hdone
    | task => exact hs.task
    | read => exact hs.read) (initial_inv slots)
  have howned := hinv.owned
  have hgiven : s.given ≤ s.taken := by
    unfold E1000.given
    split <;> omega
  refine ⟨hinv.taken, by omega, hinv.head, ?_⟩
  have hnone : s.rxFrame = none → s.reads = delivered s.completed s.taken →
      ∃ pending : List (List UInt8), pending.length ≤ 1 ∧
        s.reads ++ pending = delivered s.completed s.taken ∧
        ∀ i, s.rxFrame = some i → pending = [(range s.rxFrameSize).map (s.slots i).data] :=
    fun hframe hreads => ⟨[], by simp, by simpa using hreads, fun i hi => by
      rw [hframe] at hi
      cases hi⟩
  have hagrees := hinv.agrees
  unfold E1000.Agrees at hagrees
  split at hagrees
  · exact hnone hagrees.1 hagrees.2.2
  · obtain ⟨_, _, _, hframe, _, hreads⟩ := hagrees
    refine ⟨[_], by simp, hreads, fun i hi => ?_⟩
    rw [hframe] at hi
    cases hi
  · obtain ⟨_, _, _, ⟨hframe, hsize, _, hreads⟩ | ⟨hframe, _, hreads⟩⟩ := hagrees
    · refine ⟨[_], by simp, hreads, fun i hi => ?_⟩
      obtain rfl := some.inj (hframe.symm.trans hi)
      rw [hsize, Frame.bytes]
    · exact hnone hframe hreads
  · exact hnone hagrees.2.2.1 hagrees.2.2.2.2
  · exact hnone hagrees.2.2.1 hagrees.2.2.2.2

def shortFrame : Frame := ⟨14, 1, 0, fun i => UInt8.ofNat i⟩

def longFrame : Frame := ⟨60, 1, 0, fun i => UInt8.ofNat (i + 1)⟩

/-- Two frames are completed and read. -/
theorem reads_of_run_two : ∃ s : E1000, s.reads = [shortFrame.bytes, longFrame.bytes] ∧
    ∃ pending, s.reads ++ pending = delivered s.completed s.taken := by
  have hboth := Run.snoc (.single (Step.complete (s := initial fun _ => shortFrame)
    (f := shortFrame) (by decide) (by decide))) (.complete (f := longFrame) (by decide) (by decide))
  have hfirst := ((hboth.snoc (.task _)).snoc (.task _)).snoc (.read _)
  have hrun := (((((hfirst.snoc (.task _)).snoc (.task _)).snoc (.task _)).snoc (.task _)).snoc
    (.task _)).snoc (.read _)
  obtain ⟨_, _, _, pending, _, hreads, _⟩ := reads_of_run hrun
  exact ⟨_, rfl, pending, hreads⟩

end Dancy.Network
