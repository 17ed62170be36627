import Dancy.Lib.Bits
import Dancy.Lib.Bytes
import Mathlib.Data.List.GetD
import Mathlib.Data.List.Perm.Basic

/-!
# Descriptors of USB devices (`usb/usb_task.c`)

`usb_attach_device_task` copies the descriptors of a device to places that are
multiples of sixteen, and `start_driver_0` walks over the copies. Both buffers
have 4096 bytes; an access behind them leaves a mark in `outside`. A pointer to
a descriptor is its place in the buffer of the copies.
-/

namespace Dancy.Usb

open Dancy.Lib List

def usbPage : Nat := 0x1000

/-- `(i + 0x0F) & 0x1FF0`. -/
def roundUp (i : Nat) : Nat := (i + 0x0F) &&& 0x1FF0

/-- The loop of `usb_attach_device_task`: the copies, and if an access was
outside. -/
def copyLoop (p1 : Bytes) (size : Nat) :
    (fuel i j : Nat) → (p0 : Bytes) → (outside : Bool) → Option (Bytes × Bool)
  | 0, _, _, _, _ => none
  | fuel + 1, i, j, p0, outside =>
    if i + 2 < size then
      let bLength := (p1 i).toNat
      let outside := outside || decide (usbPage ≤ i)
      if bLength < 2 then some (p0, outside)
      else
        let j := roundUp j
        if j + bLength ≥ 0x0FF0 then some (p0, outside)
        else copyLoop p1 size fuel (i + bLength) (j + bLength) (p0.copy j p1 i bLength)
          (outside || decide (usbPage < i + bLength) || decide (usbPage < j + bLength))
    else some (p0, outside)

/-! ## Drivers -/

/-- `driver->descriptor`. -/
structure UsbDriver where
  (device configuration interface hid : Option Nat)
  endpoints : Nat → Option Nat

def UsbDriver.zero : UsbDriver := ⟨none, none, none, none, fun _ => none⟩

/-- What `start_driver_1` ends with. -/
inductive Started where
  | memory
  | erroneous
  | found

/-- `count` of `start_driver_1`. -/
def endpointCount (driver : UsbDriver) : Nat :=
  ((range 32).filter fun i => (driver.endpoints i).isSome).length

/-- `start_driver_1`, up to the message that an interface was found; `mem` tells
if there is memory for the copy of the driver. -/
def startDriver1 (buffer : Bytes) (mem : Bool) (driver : UsbDriver) : Started :=
  if mem then
    if endpointCount driver ≠ (buffer (driver.interface.getD 0 + 4)).toNat then .erroneous
    else .found
  else .memory

/-- The state of `start_driver_0`. -/
structure WalkState where
  driver : UsbDriver
  started : List (UsbDriver × Started)
  outside : Bool

section
variable (buffer : Bytes) (mem : Nat → Bool)

def startPending (st : WalkState) : WalkState :=
  if st.driver.interface ≠ none then
    { st with
      started := st.started ++
        [(st.driver, startDriver1 buffer (mem st.started.length) st.driver)]
      outside := st.outside || decide (usbPage ≤ st.driver.interface.getD 0 + 7) }
  else st

def WalkState.clear (st : WalkState) : WalkState :=
  { st with driver :=
      { st.driver with interface := none, hid := none, endpoints := fun _ => none } }

/-- The bytes up to `offset + k` are read. -/
def WalkState.touch (st : WalkState) (offset k : Nat) : WalkState :=
  { st with outside := st.outside || decide (usbPage ≤ offset + k) }

/-- One round of `start_driver_0`: if the loop is left. -/
def walkStep (offset : Nat) (st : WalkState) : Bool × WalkState :=
  let st := st.touch offset 1
  let bLength := (buffer offset).toNat
  let bDescriptorType := (buffer (offset + 1)).toNat
  let d := st.driver
  if bLength < 2 then (true, { startPending buffer mem st with driver := UsbDriver.zero })
  else if bDescriptorType = 1 ∧ bLength ≥ 18 then
    if d.device ≠ none then (true, st)
    else (false, { st with driver := { d with device := some offset } })
  else if bDescriptorType = 2 ∧ bLength ≥ 9 then
    if d.device = none then (false, st)
    else
      let st := (startPending buffer mem st).clear
      if d.configuration ≠ none then (true, st)
      else (false, { st with driver := { st.driver with configuration := some offset } })
  else if bDescriptorType = 4 ∧ bLength ≥ 9 then
    if d.device = none then (false, st)
    else if d.configuration = none then (false, st)
    else
      let st := ((startPending buffer mem st).clear).touch offset 4
      if (buffer (offset + 3)).toNat ≠ 0 then (false, st)
      else if (buffer (offset + 4)).toNat = 0 then (false, st)
      else (false, { st with driver := { st.driver with interface := some offset } })
  else if bDescriptorType = 33 ∧ bLength ≥ 6 then
    if d.device = none then (false, st)
    else if d.configuration = none then (false, st)
    else if d.interface = none then (false, st)
    else (false, { st with driver := { d with hid := some offset } })
  else if bDescriptorType = 5 ∧ bLength ≥ 7 then
    let st := st.touch offset 2
    let address := (buffer (offset + 2)).toNat
    let epNumber := address % 16
    let epIn := if address / 128 % 2 ≠ 0 then 1 else 0
    if d.device = none then (false, st)
    else if d.configuration = none then (false, st)
    else if d.interface = none then (false, st)
    else if epNumber ≠ 0 then
      (false, { st with driver := { d with endpoints :=
            fun i => if i = 2 * epNumber + epIn then some offset else d.endpoints i } })
    else (false, st)
  else (false, st)

/-- The loop of `start_driver_0`. -/
def walk : (fuel offset : Nat) → WalkState → Option WalkState
  | 0, _, _ => none
  | fuel + 1, offset, st =>
    match walkStep buffer mem offset st with
    | (true, st) => some st
    | (false, st) => walk fuel (roundUp (offset + (buffer offset).toNat)) st

end

/-- `usb_attach_device_task` behind `n_read`, which gives `size` bytes of `p1`;
the copies, and what `start_driver_0` does. -/
def usbAttach (mem : Nat → Bool) (p1 : Bytes) (size fuel : Nat) : Option (Bytes × WalkState) :=
  match copyLoop p1 size fuel 0 0 (fun _ => 0) false with
  | none => none
  | some (p0, outside) =>
    (walk p0 mem fuel 0 ⟨UsbDriver.zero, [], outside⟩).map fun st => (p0, st)

/-! ## Lists of descriptors -/

abbrev Desc := List UInt8

def Desc.at (d : Desc) (k : Nat) : Nat := (d.getD k 0).toNat

def IsDesc (d : Desc) : Prop := 2 ≤ d.length ∧ d.at 0 = d.length

/-- A descriptor of an interface, or one that is none of the five kinds. -/
def IsItem (d : Desc) : Prop :=
  IsDesc d ∧ d.at 1 ≠ 1 ∧ d.at 1 ≠ 2 ∧ d.at 1 ≠ 4 ∧ (d.at 1 = 33 → 6 ≤ d.length) ∧
    (d.at 1 = 5 → 7 ≤ d.length ∧ d.at 2 % 16 ≠ 0)

def isHid (d : Desc) : Bool := d.at 1 = 33

def isEndpoint (d : Desc) : Bool := d.at 1 = 5

/-- The number and the direction of an endpoint. -/
def endpointIndex (d : Desc) : Nat :=
  2 * (d.at 2 % 16) + if d.at 2 / 128 % 2 ≠ 0 then 1 else 0

/-- An interface and what follows it up to the next one. -/
structure Group where
  interface : Desc
  items : List Desc

/-- The device and the first configuration, with what precedes the first
interface, the interfaces, and the other configurations. -/
structure DescList where
  (device configuration : Desc)
  front : List Desc
  groups : List Group
  tail : List Desc

def Group.all (g : Group) : List Desc := g.interface :: g.items

def DescList.all (l : DescList) : List Desc :=
  l.device :: l.configuration :: (l.front ++ (l.groups.flatMap Group.all ++ l.tail))

/-- One HID descriptor at most, and as many endpoints as the interface says, all
of them different. -/
structure Group.WellFormed (g : Group) : Prop where
  interface : IsDesc g.interface ∧ g.interface.at 1 = 4 ∧ 9 ≤ g.interface.length
  items : ∀ d ∈ g.items, IsItem d
  hid : (g.items.filter isHid).length ≤ 1
  distinct : ((g.items.filter isEndpoint).map endpointIndex).Nodup
  number : (g.items.filter isEndpoint).length = g.interface.at 4

structure DescList.WellFormed (l : DescList) : Prop where
  device : IsDesc l.device ∧ l.device.at 1 = 1 ∧ 18 ≤ l.device.length
  configuration : IsDesc l.configuration ∧ l.configuration.at 1 = 2 ∧ 9 ≤ l.configuration.length
  front : ∀ d ∈ l.front, IsItem d
  groups : ∀ g ∈ l.groups, g.WellFormed
  tail : ∀ d ∈ l.tail, IsDesc d
  next : ∀ d r, l.tail = d :: r → d.at 1 = 2 ∧ 9 ≤ d.length

def DescList.toStart (l : DescList) : List Group :=
  l.groups.filter fun g => g.interface.at 3 = 0 && g.interface.at 4 ≠ 0

/-- The copies end in front of the last sixteen bytes. -/
def FitsFrom : (j : Nat) → List Desc → Prop
  | _, [] => True
  | j, d :: ds => roundUp j + d.length < 0x0FF0 ∧ FitsFrom (roundUp j + d.length) ds

def At (buffer : Bytes) (p : Nat) (d : Desc) : Prop := ∀ k < d.length, buffer (p + k) = d.getD k 0

/-- The pointer is the one to the descriptor, if there is one. -/
def Points (buffer : Bytes) (p : Option Nat) (d : Option Desc) : Prop :=
  match d with
  | some d => ∃ a, p = some a ∧ At buffer a d
  | none => p = none

/-- The driver has the descriptors of the interface. -/
structure Drives (buffer : Bytes) (l : DescList) (driver : UsbDriver) (g : Group) : Prop where
  device : Points buffer driver.device (some l.device)
  configuration : Points buffer driver.configuration (some l.configuration)
  interface : Points buffer driver.interface (some g.interface)
  hid : Points buffer driver.hid (g.items.find? isHid)
  endpoints : ∀ i, Points buffer (driver.endpoints i)
    (g.items.find? fun d => isEndpoint d && endpointIndex d = i)

/-- Each interface is started once, with what belongs to it, as far as there is
memory. -/
def StartsAll (buffer : Bytes) (mem : Nat → Bool) (l : DescList) (st : WalkState) : Prop :=
  List.Forall₂ (fun s g => Drives buffer l s.1 g) st.started l.toStart ∧
    st.started.map Prod.snd = (range st.started.length).map fun k =>
      if mem k then .found else .memory

/-- `size` bytes of the buffer are the descriptors of a list. -/
def Holds (p1 : Bytes) (size : Nat) (ds : List Desc) : Prop :=
  size = ds.flatten.length ∧ ∀ k < size, p1 k = ds.flatten.getD k 0

variable {buffer p0 p1 : Bytes} {p i j n size : Nat} {d : Desc} {ds : List Desc}

/-! ## Places -/

theorem roundUp_eq (h : i ≤ 0x1000) : roundUp i = (i + 15) / 16 * 16 :=
  @and_high_bits 13 4 (i + 15) (by decide) (by omega)

theorem roundUp_le (h : i < 0x0FF0) : i ≤ roundUp i ∧ roundUp i ≤ 0x0FF0 := by
  rw [roundUp_eq (by omega)]
  omega

def bytesOf (b : Bytes) (i n : Nat) : Desc := (range n).map fun k => b (i + k)

@[simp] theorem bytesOf_length (b : Bytes) (i n : Nat) : (bytesOf b i n).length = n := by
  simp [bytesOf]

theorem bytesOf_getD {k : Nat} (b : Bytes) (i : Nat) (hk : k < n) :
    (bytesOf b i n).getD k 0 = b (i + k) := by
  rw [getD_eq_getElem _ _ (by simpa using hk)]
  simp [bytesOf]

/-- The descriptors lie one behind the other, each at a place for it, and a zero
follows. -/
def Placed (buffer : Bytes) : (p : Nat) → List Desc → Prop
  | p, [] => buffer p = 0 ∧ p ≤ 0x0FF0
  | p, d :: ds => IsDesc d ∧ At buffer p d ∧ p + d.length < 0x0FF0 ∧
      Placed buffer (roundUp (p + d.length)) ds

/-- So it is, but the last descriptor may be missing if it has two bytes. -/
def Laid (buffer : Bytes) (p : Nat) (ds : List Desc) : Prop :=
  Placed buffer p ds ∨ ∃ front last, ds = front ++ [last] ∧ last.length = 2 ∧ Placed buffer p front

def copied (p1 : Bytes) (size : Nat) : (fuel i j : Nat) → List Desc
  | 0, _, _ => []
  | fuel + 1, i, j =>
    if i + 2 < size ∧ 2 ≤ (p1 i).toNat ∧ roundUp j + (p1 i).toNat < 0x0FF0 then
      bytesOf p1 i (p1 i).toNat ::
        copied p1 size fuel (i + (p1 i).toNat) (roundUp j + (p1 i).toNat)
    else []

theorem at_of_copy (n : Nat) : At (p0.copy p p1 i n) p (bytesOf p1 i n) := by
  intro k hk
  rw [bytesOf_length] at hk
  rw [bytesOf_getD p1 i hk, Bytes.copy_inside (by omega) (by omega), Nat.add_sub_cancel_left]

theorem At.congr {b b' : Bytes} (h : At b p d) (hb : ∀ k < p + d.length, b' k = b k) :
    At b' p d := by
  intro k hk
  rw [hb _ (by omega)]
  exact h k hk

theorem copyLoop_spec (hsize : size ≤ 0x1000) : ∀ (fuel i j : Nat) (p0 : Bytes) (outside : Bool),
    0 < fuel → size + 2 ≤ i + 2 * fuel → i ≤ j → j < 0x0FF0 → (∀ k, j ≤ k → p0 k = 0) →
    ∃ p0', copyLoop p1 size fuel i j p0 outside = some (p0', outside) ∧
      Placed p0' (roundUp j) (copied p1 size fuel i j) ∧ ∀ k < j, p0' k = p0 k := by
  intro fuel
  induction fuel with
  | zero =>
    intro i j p0 outside hpos
    cases hpos
  | succ fuel ih =>
    intro i j p0 outside _ hfuel hij hj hzero
    have hround := roundUp_le hj
    have hend : Placed p0 (roundUp j) [] := ⟨hzero _ hround.1, hround.2⟩
    rw [copyLoop, copied]
    by_cases hmore : i + 2 < size
    · have hpage : (outside || decide (usbPage ≤ i)) = outside := by
        rw [decide_eq_false (by rw [usbPage]; omega), Bool.or_false]
      rw [if_pos hmore]
      rw [hpage]
      by_cases hshort : (p1 i).toNat < 2
      · rw [if_pos hshort, if_neg (by omega)]
        exact ⟨p0, rfl, hend, fun _ _ => rfl⟩
      rw [if_neg hshort]
      by_cases hfull : roundUp j + (p1 i).toNat ≥ 0x0FF0
      · rw [if_pos hfull, if_neg (by omega)]
        exact ⟨p0, rfl, hend, fun _ _ => rfl⟩
      rw [if_neg hfull, if_pos ⟨hmore, by omega, by omega⟩]
      have hsafe : (outside || decide (usbPage < i + (p1 i).toNat) ||
          decide (usbPage < roundUp j + (p1 i).toNat)) = outside := by
        rw [decide_eq_false (by rw [usbPage]; omega), decide_eq_false (by rw [usbPage]; omega),
          Bool.or_false, Bool.or_false]
      rw [hsafe]
      obtain ⟨p0', hrun, hplaced, hkept⟩ := ih (i + (p1 i).toNat) (roundUp j + (p1 i).toNat)
        (p0.copy (roundUp j) p1 i (p1 i).toNat) outside (by omega) (by omega) (by omega)
        (by omega) (fun k hk => by
          rw [Bytes.copy_outside (by omega)]
          exact hzero k (by omega))
      refine ⟨p0', hrun, ⟨⟨?_, ?_⟩, ?_, ?_, ?_⟩, fun k hk => ?_⟩
      · rw [bytesOf_length]
        omega
      · rw [bytesOf_length, Desc.at, bytesOf_getD p1 i (by omega), add_zero]
      · refine At.congr (@at_of_copy p0 p1 (roundUp j) i (p1 i).toNat) fun k hk => ?_
        rw [bytesOf_length] at hk
        exact hkept k hk
      · rw [bytesOf_length]
        omega
      · rwa [bytesOf_length]
      · rw [hkept k (by omega), Bytes.copy_outside (by omega)]
    · rw [if_neg hmore, if_neg (by omega)]
      exact ⟨p0, rfl, hend, fun _ _ => rfl⟩

theorem getD_flatten_left {k : Nat} (d : Desc) (ds : List Desc) (hk : k < d.length) :
    (d :: ds).flatten.getD k 0 = d.getD k 0 := by
  rw [flatten_cons, getD_append _ _ _ _ hk]

theorem getD_flatten_right (d : Desc) (ds : List Desc) (k : Nat) :
    (d :: ds).flatten.getD (d.length + k) 0 = ds.flatten.getD k 0 := by
  rw [flatten_cons, getD_append_right _ _ _ _ (by omega), Nat.add_sub_cancel_left]

theorem bytesOf_eq (hd : ∀ k < d.length, p1 (i + k) = d.getD k 0) : bytesOf p1 i d.length = d := by
  refine ext_getElem (bytesOf_length p1 i d.length) fun k hk hk' => ?_
  have hbyte := bytesOf_getD p1 i hk'
  rw [hd k hk', getD_eq_getElem _ _ hk, getD_eq_getElem _ _ hk'] at hbyte
  exact hbyte

theorem copied_eq : ∀ (ds : List Desc) (fuel i j : Nat), ds.length < fuel →
    (∀ d ∈ ds, IsDesc d) → size = i + ds.flatten.length →
    (∀ k < ds.flatten.length, p1 (i + k) = ds.flatten.getD k 0) → FitsFrom j ds →
    copied p1 size fuel i j = ds ∨
      ∃ last, ds = copied p1 size fuel i j ++ [last] ∧ last.length = 2 := by
  intro ds
  induction ds with
  | nil =>
    intro fuel i j hfuel _ hsize _ _
    refine Or.inl ?_
    cases fuel with
    | zero => rfl
    | succ fuel =>
      rw [copied, if_neg]
      rw [hsize]
      simp only [flatten_nil, length_nil]
      omega
  | cons d ds ih =>
    intro fuel i j hfuel hdesc hsize hbytes hfits
    obtain ⟨hlen, hfirst⟩ := hdesc d mem_cons_self
    cases fuel with
    | zero => cases hfuel
    | succ fuel =>
      have hdbytes : ∀ k < d.length, p1 (i + k) = d.getD k 0 := by
        intro k hk
        rw [hbytes k (by rw [flatten_cons, length_append]; omega), getD_flatten_left d ds hk]
      have hbLength : (p1 i).toNat = d.length := by
        have h0 := hdbytes 0 (by omega)
        rw [add_zero] at h0
        rwa [h0]
      have htotal : (d :: ds).flatten.length = d.length + ds.flatten.length := by
        rw [flatten_cons, length_append]
      rw [copied, hbLength]
      by_cases hmore : i + 2 < size
      · rw [if_pos ⟨hmore, hlen, hfits.1⟩, bytesOf_eq hdbytes]
        rcases ih fuel (i + d.length) (roundUp j + d.length) (by
            rw [length_cons] at hfuel
            omega) (fun e he => hdesc e (.tail d he)) (by omega)
          (fun k hk => by
            rw [add_assoc, hbytes _ (by omega), getD_flatten_right]) hfits.2 with
          heq | ⟨last, heq, hlast⟩
        · exact Or.inl (congrArg (d :: ·) heq)
        · exact Or.inr ⟨last, congrArg (d :: ·) heq, hlast⟩
      · rw [if_neg (fun h => hmore h.1)]
        refine Or.inr ⟨d, ?_, by omega⟩
        cases ds with
        | nil => rfl
        | cons e ds =>
          obtain ⟨hlen', -⟩ := hdesc e (.tail d mem_cons_self)
          have htail : (e :: ds).flatten.length = e.length + ds.flatten.length := by
            simp
          omega

variable {buffer : Bytes} {mem : Nat → Bool} {st st' : WalkState} {p n : Nat} {d : Desc}
  {ds rest : List Desc} {l : DescList} {g : Group}

theorem WalkState.touch_in {k : Nat} (h : p + k < 0x1000) (st : WalkState) :
    st.touch p k = st := by
  rw [WalkState.touch, decide_eq_false (by rw [usbPage]; omega), Bool.or_false]

def InterfaceIn (st : WalkState) : Prop := ∀ a, st.driver.interface = some a → a + 9 ≤ 0x0FF0

theorem startPending_inside (h : InterfaceIn st) :
    (startPending buffer mem st).outside = st.outside ∧
      (startPending buffer mem st).driver = st.driver := by
  rw [startPending]
  cases hi : st.driver.interface with
  | none =>
    simp
  | some a =>
    rw [if_pos (by simp)]
    refine ⟨?_, rfl⟩
    have ha := h a hi
    dsimp only [Option.getD_some]
    rw [decide_eq_false (by rw [usbPage]; omega), Bool.or_false]

theorem walkStep_inside (hp : p ≤ 0x0FF0)
    (hlen : 2 ≤ (buffer p).toNat → p + (buffer p).toNat < 0x0FF0) (h : InterfaceIn st) :
    (walkStep buffer mem p st).2.outside = st.outside ∧
      InterfaceIn (walkStep buffer mem p st).2 := by
  obtain ⟨hout, hdriver⟩ := @startPending_inside buffer mem st h
  have hnone : ∀ {st : WalkState}, st.driver.interface = none → InterfaceIn st := by
    intro st hi a ha
    rw [hi] at ha
    cases ha
  rw [walkStep, WalkState.touch_in (by omega)]
  dsimp only
  by_cases hshort : (buffer p).toNat < 2
  · rw [if_pos hshort]
    exact ⟨hout, hnone rfl⟩
  rw [if_neg hshort]
  by_cases h1 : (buffer (p + 1)).toNat = 1 ∧ (buffer p).toNat ≥ 18
  · rw [if_pos h1]
    split
    · exact ⟨rfl, h⟩
    · exact ⟨rfl, h⟩
  rw [if_neg h1]
  by_cases h2 : (buffer (p + 1)).toNat = 2 ∧ (buffer p).toNat ≥ 9
  · rw [if_pos h2]
    split
    · exact ⟨rfl, h⟩
    · split
      all_goals exact ⟨hout, hnone rfl⟩
  rw [if_neg h2]
  by_cases h4 : (buffer (p + 1)).toNat = 4 ∧ (buffer p).toNat ≥ 9
  · rw [if_pos h4, WalkState.touch_in (by omega)]
    split
    · exact ⟨rfl, h⟩
    split
    · exact ⟨rfl, h⟩
    split
    · exact ⟨hout, hnone rfl⟩
    split
    · exact ⟨hout, hnone rfl⟩
    · refine ⟨hout, fun a ha => ?_⟩
      cases ha
      omega
  rw [if_neg h4]
  by_cases h33 : (buffer (p + 1)).toNat = 33 ∧ (buffer p).toNat ≥ 6
  · rw [if_pos h33]
    iterate 3
      split
      · exact ⟨rfl, h⟩
    · exact ⟨rfl, h⟩
  rw [if_neg h33]
  by_cases h5 : (buffer (p + 1)).toNat = 5 ∧ (buffer p).toNat ≥ 7
  · rw [if_pos h5, WalkState.touch_in (by omega)]
    by_cases hready : st.driver.device = none ∨ st.driver.configuration = none ∨
        st.driver.interface = none
    · rcases hready with hno | hno | hno
      · rw [if_pos hno]
        exact ⟨rfl, h⟩
      · rw [if_pos hno]
        split <;> exact ⟨rfl, h⟩
      · split
        · exact ⟨rfl, h⟩
        · split <;> exact ⟨rfl, h⟩
    · rw [not_or, not_or] at hready
      rw [if_neg hready.1, if_neg hready.2.1, if_neg hready.2.2]
      split
      · exact ⟨rfl, h⟩
      · exact ⟨rfl, h⟩
  · rw [if_neg h5]
    exact ⟨rfl, h⟩

theorem walk_inside : ∀ (ds : List Desc) (p : Nat) (st : WalkState), Placed buffer p ds →
    InterfaceIn st → ∃ fuel st', walk buffer mem fuel p st = some st' ∧
      st'.outside = st.outside := by
  intro ds
  induction ds with
  | nil =>
    intro p st hplaced hin
    have hzero : (buffer p).toNat = 0 := by rw [hplaced.1]; rfl
    obtain ⟨hout, -⟩ := @walkStep_inside buffer mem st p hplaced.2 (fun h => by omega) hin
    refine ⟨1, (walkStep buffer mem p st).2, ?_, hout⟩
    have hstop : (walkStep buffer mem p st).1 = true := by
      rw [walkStep]
      rw [if_pos (by omega)]
    rw [walk]
    generalize walkStep buffer mem p st = r at hstop
    obtain ⟨stop, st'⟩ := r
    cases hstop
    rfl
  | cons d ds ih =>
    rintro p st ⟨⟨hlen, hfirst⟩, hat, hfits, hrest⟩ hin
    have hbLength : (buffer p).toNat = d.length := by
      rw [← hfirst, Desc.at, ← hat 0 (by omega), add_zero]
    obtain ⟨hout, hin'⟩ := @walkStep_inside buffer mem st p (by omega) (fun _ => by omega) hin
    cases hstep : walkStep buffer mem p st with
    | mk stop st' =>
      rw [hstep] at hout hin'
      cases stop with
      | true => exact ⟨1, st', by rw [walk, hstep], hout⟩
      | false =>
        obtain ⟨fuel, st'', hrun, hout'⟩ := ih _ st' (hbLength ▸ hrest) hin'
        exact ⟨fuel + 1, st'', by rw [walk, hstep]; exact hrun, hout'.trans hout⟩

end Dancy.Usb
