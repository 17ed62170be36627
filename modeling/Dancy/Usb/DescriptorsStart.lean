import Dancy.Usb.Descriptors

/-!
# The interfaces that are started

Between two interfaces the driver has the descriptors of the one before, and it
is started by the interface that follows, by another configuration, or by the
end.
-/

namespace Dancy.Usb

open Dancy.Lib List Option

variable {buffer : Bytes} {mem : Nat → Bool} {st st' : WalkState} {p n : Nat} {d : Desc}
  {ds rest : List Desc} {l : DescList} {g : Group}

theorem At.byte {k : Nat} (h : At buffer p d) (hk : k < d.length) :
    (buffer (p + k)).toNat = d.at k := by
  rw [h k hk]
  rfl

theorem At.bLength (h : At buffer p d) (hd : IsDesc d) : (buffer p).toNat = d.length := by
  have h0 := h.byte (k := 0) (by have := hd.1; omega)
  exact h0.trans hd.2

theorem walk_next (hat : At buffer p d) (hd : IsDesc d)
    (hstep : walkStep buffer mem p st = (false, st')) (fuel : Nat) :
    walk buffer mem (fuel + 1) p st = walk buffer mem fuel (roundUp (p + d.length)) st' := by
  rw [walk, hstep, hat.bLength hd]

theorem Laid.cons_cases (h : Laid buffer p (d :: ds)) :
    (IsDesc d ∧ At buffer p d ∧ p + d.length < 0x0FF0 ∧ Laid buffer (roundUp (p + d.length)) ds) ∨
      (ds = [] ∧ d.length = 2 ∧ Laid buffer p []) := by
  rcases h with ⟨hdesc, hat, hfits, hrest⟩ | ⟨front, last, heq, hlast, hplaced⟩
  · exact Or.inl ⟨hdesc, hat, hfits, Or.inl hrest⟩
  cases front with
  | nil =>
    obtain ⟨rfl, rfl⟩ := cons.inj heq
    exact Or.inr ⟨rfl, hlast, Or.inl hplaced⟩
  | cons e front =>
    obtain ⟨rfl, rfl⟩ := cons.inj heq
    obtain ⟨hdesc, hat, hfits, hrest⟩ := hplaced
    exact Or.inl ⟨hdesc, hat, hfits, Or.inr ⟨front, last, rfl, hlast, hrest⟩⟩

theorem Laid.nil (h : Laid buffer p []) : (buffer p).toNat = 0 := by
  rcases h with ⟨hzero, -⟩ | ⟨front, last, heq, -, -⟩
  · rw [hzero]
    rfl
  · simp at heq

/-- The device and the configuration are known. -/
structure Ready (buffer : Bytes) (l : DescList) (driver : UsbDriver) : Prop where
  device : Points buffer driver.device (some l.device)
  configuration : Points buffer driver.configuration (some l.configuration)

variable {driver : UsbDriver} {iface : Desc} {xs ys : List Desc}

theorem Ready.ne_none (h : Ready buffer l driver) :
    driver.device ≠ none ∧ driver.configuration ≠ none := by
  obtain ⟨a, ha, -⟩ := h.device
  obtain ⟨a', ha', -⟩ := h.configuration
  rw [ha, ha']
  simp

def Pending (buffer : Bytes) (l : DescList) (driver : UsbDriver) : Option Group → Prop
  | none => Ready buffer l driver ∧ driver.interface = none ∧ driver.hid = none ∧
      ∀ i, driver.endpoints i = none
  | some g => Drives buffer l driver g

theorem Drives.ready (h : Drives buffer l driver g) :
    Ready buffer l driver := ⟨h.device, h.configuration⟩

theorem Pending.ready {pend : Option Group} (h : Pending buffer l driver pend) :
    Ready buffer l driver := by
  cases pend with
  | none => exact h.1
  | some g => exact Drives.ready h

theorem find_snoc (xs : List Desc) (d : Desc) (q : Desc → Bool) :
    (xs ++ [d]).find? q = (xs.find? q).or (if q d then some d else none) := by
  by_cases hq : q d = true
  · simp
  · simp

section

variable (h : Drives buffer l driver ⟨iface, xs⟩)
include h

theorem Drives.other (hhid : isHid d = false) (hep : isEndpoint d = false) :
    Drives buffer l driver ⟨iface, xs ++ [d]⟩ where
  device := h.device
  configuration := h.configuration
  interface := h.interface
  hid := by
    rw [find_snoc, hhid, if_neg Bool.false_ne_true, or_none]
    exact h.hid
  endpoints i := by
    rw [find_snoc, hep, Bool.false_and, if_neg Bool.false_ne_true, or_none]
    exact h.endpoints i

theorem Drives.hidItem (hat : At buffer p d) (hhid : isHid d = true) (hep : isEndpoint d = false)
    (hnew : xs.find? isHid = none) :
    Drives buffer l { driver with hid := some p } ⟨iface, xs ++ [d]⟩ where
  device := h.device
  configuration := h.configuration
  interface := h.interface
  hid := by
    rw [find_snoc, hnew, none_or, if_pos hhid]
    exact ⟨p, rfl, hat⟩
  endpoints i := by
    rw [find_snoc, hep, Bool.false_and, if_neg Bool.false_ne_true, or_none]
    exact h.endpoints i

theorem Drives.endpointItem (hat : At buffer p d) (hhid : isHid d = false)
    (hep : isEndpoint d = true)
    (hnew : xs.find? (fun e => isEndpoint e && endpointIndex e = endpointIndex d) = none) :
    Drives buffer l
      { driver with endpoints :=
          fun i => if i = endpointIndex d then some p else driver.endpoints i }
      ⟨iface, xs ++ [d]⟩ where
  device := h.device
  configuration := h.configuration
  interface := h.interface
  hid := by
    rw [find_snoc, hhid, if_neg Bool.false_ne_true, or_none]
    exact h.hid
  endpoints i := by
    dsimp only
    rw [find_snoc, hep, Bool.true_and]
    by_cases hi : i = endpointIndex d
    · subst hi
      rw [if_pos rfl, hnew, none_or, if_pos (decide_eq_true rfl)]
      exact ⟨p, rfl, hat⟩
    · rw [if_neg hi, if_neg (by simpa using fun h => hi h.symm), or_none]
      exact h.endpoints i

end

theorem find_none_of_filter {q : Desc → Bool} (h : ((xs ++ d :: ys).filter q).length ≤ 1)
    (hd : q d = true) : xs.find? q = none := by
  rw [filter_append, filter_cons_of_pos hd, length_append, length_cons] at h
  have hnil : xs.filter q = [] := length_eq_zero_iff.mp (by omega)
  rw [find?_eq_none]
  exact filter_eq_nil_iff.mp hnil

theorem find_none_of_nodup (h : (((xs ++ d :: ys).filter isEndpoint).map endpointIndex).Nodup)
    (hd : isEndpoint d = true) :
    xs.find? (fun e => isEndpoint e && endpointIndex e = endpointIndex d) = none := by
  rw [filter_append, filter_cons_of_pos hd, map_append, map_cons, nodup_append] at h
  rw [find?_eq_none]
  intro e he hboth
  rw [Bool.and_eq_true, decide_eq_true_eq] at hboth
  exact h.2.2 _ (mem_map_of_mem (mem_filter.mpr ⟨he, hboth.1⟩)) _
    mem_cons_self hboth.2

/-! ## The items of an interface -/

def UsbDriver.add (driver : UsbDriver) (p : Nat) (d : Desc) : UsbDriver :=
  if isHid d then { driver with hid := some p }
  else if isEndpoint d then
    let endpoints := fun i => if i = endpointIndex d then some p else driver.endpoints i
    { driver with endpoints := endpoints }
  else driver

theorem walkStep_item (hitem : IsItem d) (hat : At buffer p d) (hp : p + d.length < 0x0FF0)
    (hready : Ready buffer l st.driver) : walkStep buffer mem p st =
      (false, if st.driver.interface = none then st
        else { st with driver := st.driver.add p d }) := by
  obtain ⟨hdesc, h1, h2, h4, h33, h5⟩ := hitem
  obtain ⟨hdev, hconf⟩ := hready.ne_none
  have hlen := hdesc.1
  have hb := hat.bLength hdesc
  have ht := hat.byte (k := 1) (by omega)
  rw [walkStep, WalkState.touch_in (by omega)]
  rw [hb, ht, if_neg (by omega), if_neg (fun h => h1 h.1), if_neg (fun h => h2 h.1),
    if_neg (fun h => h4 h.1), if_neg hdev, if_neg hconf]
  by_cases hhid : d.at 1 = 33
  · rw [if_pos ⟨hhid, h33 hhid⟩]
    by_cases hiface : st.driver.interface = none
    · rw [if_pos hiface, if_pos hiface]
    · rw [if_neg hiface, if_neg hiface, UsbDriver.add,
        if_pos (show isHid d = true from decide_eq_true hhid)]
  rw [if_neg (fun h => hhid h.1)]
  by_cases hep : d.at 1 = 5
  · obtain ⟨hlen7, hnumber⟩ := h5 hep
    have haddress := hat.byte (k := 2) (by omega)
    rw [if_pos ⟨hep, hlen7⟩, WalkState.touch_in (by omega), haddress, if_neg hdev, if_neg hconf]
    by_cases hiface : st.driver.interface = none
    · rw [if_pos hiface, if_pos hiface]
    · rw [if_neg hiface, if_neg hiface, if_pos hnumber, UsbDriver.add,
        if_neg (show ¬ isHid d = true by simpa [isHid] using hhid),
        if_pos (show isEndpoint d = true from decide_eq_true hep)]
      rfl
  · rw [if_neg (fun h => hep h.1)]
    rw [UsbDriver.add, if_neg (show ¬ isHid d = true by simpa [isHid] using hhid),
      if_neg (show ¬ isEndpoint d = true by simpa [isEndpoint] using hep), ite_self]

structure Fresh (xs : List Desc) (d : Desc) : Prop where
  hid : isHid d = true → xs.find? isHid = none
  endpoint : isEndpoint d = true →
    xs.find? (fun e => isEndpoint e && endpointIndex e = endpointIndex d) = none

theorem Group.WellFormed.fresh (h : Group.WellFormed ⟨iface, xs ++ d :: ys⟩) : Fresh xs d :=
  ⟨find_none_of_filter h.hid, find_none_of_nodup h.distinct⟩

theorem Drives.add (h : Drives buffer l driver ⟨iface, xs⟩) (hat : At buffer p d)
    (hfresh : Fresh xs d) : Drives buffer l (driver.add p d) ⟨iface, xs ++ [d]⟩ := by
  rw [UsbDriver.add]
  by_cases hhid : isHid d = true
  · have hep : isEndpoint d = false := by
      rw [isHid, decide_eq_true_eq] at hhid
      rw [isEndpoint, hhid]
      rfl
    rw [if_pos hhid]
    exact h.hidItem hat hhid hep (hfresh.hid hhid)
  · rw [if_neg hhid]
    by_cases hep : isEndpoint d = true
    · rw [if_pos hep]
      exact h.endpointItem hat (Bool.eq_false_iff.mpr hhid) hep (hfresh.endpoint hep)
    · rw [if_neg hep]
      exact h.other (Bool.eq_false_iff.mpr hhid) (Bool.eq_false_iff.mpr hep)

/-- The walk leads on, without starting anything. -/
def Leads (buffer : Bytes) (mem : Nat → Bool) (p : Nat) (st : WalkState) (p' : Nat)
    (st' : WalkState) : Prop :=
  st'.started = st.started ∧
    ∃ n, ∀ fuel, walk buffer mem (fuel + n) p st = walk buffer mem fuel p' st'

theorem Leads.refl (p : Nat) (st : WalkState) : Leads buffer mem p st p st :=
  ⟨rfl, 0, fun _ => rfl⟩

theorem Leads.next {p' : Nat} {st'' : WalkState} (hat : At buffer p d) (hd : IsDesc d)
    (hstep : walkStep buffer mem p st = (false, st')) (hstarted : st'.started = st.started)
    (h : Leads buffer mem (roundUp (p + d.length)) st' p' st'') :
    Leads buffer mem p st p' st'' := by
  obtain ⟨heq, n, hn⟩ := h
  refine ⟨heq.trans hstarted, n + 1, fun fuel => ?_⟩
  rw [← add_assoc, walk_next hat hd hstep, hn]

theorem front_walk : ∀ (items : List Desc) (p : Nat) (st : WalkState), (∀ d ∈ items, IsItem d) →
    Laid buffer p (items ++ rest) → Pending buffer l st.driver none →
    ∃ p', Leads buffer mem p st p' st ∧ Laid buffer p' rest := by
  intro items
  induction items with
  | nil => exact fun p st _ h _ => ⟨p, Leads.refl p st, h⟩
  | cons d items ih =>
    intro p st hitems hlaid hpend
    rcases hlaid.cons_cases with ⟨hdesc, hat, hfits, hrest⟩ | ⟨hnil, -, hend⟩
    · have hstep := @walkStep_item buffer mem _ _ _ _ (hitems d mem_cons_self) hat hfits hpend.1
      rw [if_pos hpend.2.1] at hstep
      obtain ⟨p', hleads, hlaid'⟩ :=
        ih _ st (fun e he => hitems e (.tail d he)) hrest hpend
      exact ⟨p', hleads.next hat hdesc hstep rfl, hlaid'⟩
    · obtain ⟨-, rfl⟩ := append_eq_nil_iff.mp hnil
      exact ⟨p, Leads.refl p st, hend⟩

theorem items_walk {iface : Desc} : ∀ (items xs : List Desc) (p : Nat) (st : WalkState),
    Group.WellFormed ⟨iface, xs ++ items⟩ → Laid buffer p (items ++ rest) →
    Drives buffer l st.driver ⟨iface, xs⟩ →
    ∃ p' st', Leads buffer mem p st p' st' ∧ Laid buffer p' rest ∧
      Drives buffer l st'.driver ⟨iface, xs ++ items⟩ := by
  intro items
  induction items with
  | nil =>
    intro xs p st _ hlaid hdrives
    rw [append_nil]
    exact ⟨p, st, Leads.refl p st, hlaid, hdrives⟩
  | cons d items ih =>
    intro xs p st hwf hlaid hdrives
    have hitem := hwf.items d (mem_append_right xs mem_cons_self)
    have hsplit : xs ++ d :: items = xs ++ [d] ++ items := by simp
    rcases hlaid.cons_cases with ⟨hdesc, hat, hfits, hrest⟩ | ⟨hnil, hlen, hend⟩
    · obtain ⟨a, ha, -⟩ := hdrives.interface
      have hstep := @walkStep_item buffer mem _ _ _ _ hitem hat hfits hdrives.ready
      rw [if_neg (by rw [ha]; simp)] at hstep
      have hadd := hdrives.add hat hwf.fresh
      rw [hsplit] at hwf ⊢
      obtain ⟨p', st', hleads, hlaid', hdrives'⟩ := ih (xs ++ [d]) _
        { st with driver := st.driver.add p d } hwf hrest hadd
      exact ⟨p', st', hleads.next hat hdesc hstep rfl, hlaid', hdrives'⟩
    · -- two bytes are no descriptor of an interface
      obtain ⟨-, -, -, -, h33, h5⟩ := hitem
      have hhid : isHid d = false := decide_eq_false fun h => by omega
      have hep : isEndpoint d = false := decide_eq_false fun h => by omega
      obtain ⟨rfl, rfl⟩ := append_eq_nil_iff.mp hnil
      exact ⟨p, st, Leads.refl p st, hend, hdrives.other hhid hep⟩

/-! ## The interface is started -/

theorem endpointIndex_lt (d : Desc) : endpointIndex d < 32 := by
  rw [endpointIndex]
  split <;> omega

theorem Drives.endpointCount (h : Drives buffer l driver g) (hwf : g.WellFormed) :
    endpointCount driver = (g.items.filter isEndpoint).length := by
  have hsome : ∀ i, (driver.endpoints i).isSome = true ↔
      i ∈ (g.items.filter isEndpoint).map endpointIndex := by
    intro i
    have hpoints := h.endpoints i
    cases hfind : g.items.find? (fun d => isEndpoint d && endpointIndex d = i) with
    | none =>
      rw [hfind] at hpoints
      rw [hpoints]
      refine ⟨fun hno => (by cases hno), fun hmem => ?_⟩
      obtain ⟨e, he, hi⟩ := mem_map.mp hmem
      obtain ⟨he, hep⟩ := mem_filter.mp he
      have hno := find?_eq_none.mp hfind e he
      rw [hep, hi, Bool.true_and, decide_eq_true rfl] at hno
      exact absurd rfl hno
    | some e =>
      rw [hfind] at hpoints
      obtain ⟨a, ha, -⟩ := hpoints
      rw [ha]
      refine ⟨fun _ => mem_map.mpr ⟨e, mem_filter.mpr ⟨mem_of_find?_eq_some hfind,
        ?_⟩, ?_⟩, fun _ => rfl⟩
      · have hboth := find?_some hfind
        rw [Bool.and_eq_true] at hboth
        exact hboth.1
      · have hboth := find?_some hfind
        rw [Bool.and_eq_true, decide_eq_true_eq] at hboth
        exact hboth.2
  have hperm : ((range 32).filter fun i => (driver.endpoints i).isSome).Perm
      ((g.items.filter isEndpoint).map endpointIndex) := by
    refine (perm_ext_iff_of_nodup (nodup_range.filter _) hwf.distinct).mpr fun i => ?_
    rw [mem_filter, hsome i, mem_range]
    refine ⟨And.right, fun hi => ⟨?_, hi⟩⟩
    obtain ⟨e, -, rfl⟩ := mem_map.mp hi
    exact endpointIndex_lt e
  simp [Dancy.Usb.endpointCount, hperm.length_eq]

theorem startPending_some (h : Drives buffer l st.driver g) (hwf : g.WellFormed) :
    (startPending buffer mem st).started = st.started ++
        [(st.driver, if mem st.started.length then .found else .memory)] ∧
      (startPending buffer mem st).driver = st.driver := by
  obtain ⟨a, ha, hat⟩ := h.interface
  have hnumber : (buffer (st.driver.interface.getD 0 + 4)).toNat = g.interface.at 4 := by
    rw [ha, getD_some]
    exact hat.byte (by have := hwf.interface.2.2; omega)
  rw [startPending, if_pos (by rw [ha]; simp), startDriver1, hnumber,
    h.endpointCount hwf, hwf.number, if_neg (not_not_intro rfl)]
  simp

theorem startPending_none (h : st.driver.interface = none) : startPending buffer mem st = st := by
  rw [startPending, if_neg (not_not_intro h)]

/-- What was started: one after the other, from a count on. -/
structure StartedFrom (buffer : Bytes) (mem : Nat → Bool) (l : DescList) (n : Nat)
    (more : List (UsbDriver × Started)) (gs : List Group) : Prop where
  drives : List.Forall₂ (fun s g => Drives buffer l s.1 g) more gs
  memory : more.map Prod.snd = (range' n more.length).map fun k =>
    if mem k then .found else .memory

theorem StartedFrom.cons {more : List (UsbDriver × Started)} {gs : List Group}
    {driver : UsbDriver} (h : Drives buffer l driver g)
    (hmore : StartedFrom buffer mem l (n + 1) more gs) :
    StartedFrom buffer mem l n
      ((driver, if mem n then .found else .memory) :: more) (g :: gs) where
  drives := .cons h hmore.drives
  memory := by
    simp [range'_succ, hmore.memory]

theorem pending_flush {pend : Option Group} (h : Pending buffer l st.driver pend)
    (hwf : ∀ g, pend = some g → g.WellFormed) :
    ∃ first, (startPending buffer mem st).started = st.started ++ first ∧
      (startPending buffer mem st).driver = st.driver ∧
      ∀ more gs, StartedFrom buffer mem l (st.started.length + first.length) more gs →
        StartedFrom buffer mem l st.started.length (first ++ more) (pend.toList ++ gs) := by
  cases pend with
  | none =>
    refine ⟨[], ?_, ?_, fun more gs hmore => hmore⟩
    · rw [startPending_none h.2.1, append_nil]
    · rw [startPending_none h.2.1]
  | some g =>
    obtain ⟨hstarted, hdriver⟩ := @startPending_some buffer mem _ _ _ h (hwf g rfl)
    exact ⟨_, hstarted, hdriver, fun more gs hmore => StartedFrom.cons h hmore⟩

theorem Ready.clear {st : WalkState} (h : Ready buffer l st.driver) :
    Pending buffer l st.clear.driver none :=
  ⟨⟨h.device, h.configuration⟩, rfl, rfl, fun _ => rfl⟩

theorem tail_walk {pend : Option Group} (hwf : ∀ g, pend = some g → g.WellFormed)
    (hnext : ∀ d r, l.tail = d :: r → d.at 1 = 2 ∧ 9 ≤ d.length)
    (h : Pending buffer l st.driver pend) (hlaid : Laid buffer p l.tail) :
    ∃ fuel st' more, walk buffer mem fuel p st = some st' ∧ st'.started = st.started ++ more ∧
      StartedFrom buffer mem l st.started.length more pend.toList := by
  have hstop : ∀ {st' : WalkState}, walkStep buffer mem p st = (true, st') →
      walk buffer mem 1 p st = some st' := by
    intro st' hstep
    rw [walk, hstep]
  -- the mark of the read is not looked at
  have htouch : Pending buffer l (st.touch p 1).driver pend := h
  obtain ⟨first, hstarted, hdriver, hmore⟩ := @pending_flush buffer mem (st.touch p 1) l _ htouch hwf
  have hfirst := hmore [] [] ⟨.nil, rfl⟩
  rw [append_nil, append_nil] at hfirst
  obtain ⟨hdev, hconf⟩ := htouch.ready.ne_none
  cases htail : l.tail with
  | nil =>
    rw [htail] at hlaid
    have hstep : walkStep buffer mem p st =
        (true, { startPending buffer mem (st.touch p 1) with driver := UsbDriver.zero }) := by
      exact if_pos (by rw [hlaid.nil]; decide)
    exact ⟨1, _, first, hstop hstep, hstarted, hfirst⟩
  | cons d r =>
    obtain ⟨htype, hlen⟩ := hnext d r htail
    rw [htail] at hlaid
    rcases hlaid.cons_cases with ⟨hdesc, hat, hfits, -⟩ | ⟨-, hshort, -⟩
    · have ht := hat.byte (k := 1) (by omega)
      have hstep : walkStep buffer mem p st =
          (true, (startPending buffer mem (st.touch p 1)).clear) := by
        rw [walkStep]
        rw [hat.bLength hdesc, ht, htype, if_neg (by omega), if_neg (by omega),
          if_pos ⟨rfl, hlen⟩, if_neg hdev, if_pos hconf]
      exact ⟨1, _, first, hstop hstep, hstarted, hfirst⟩
    · omega

def Group.starts (g : Group) : Bool := g.interface.at 3 = 0 && g.interface.at 4 ≠ 0

theorem interface_step (hg : IsDesc g.interface ∧ g.interface.at 1 = 4 ∧ 9 ≤ g.interface.length)
    (hat : At buffer p g.interface) (hfits : p + g.interface.length < 0x0FF0) {pend : Option Group}
    (hwf : ∀ g, pend = some g → g.WellFormed) (h : Pending buffer l st.driver pend) :
    ∃ st' first, walkStep buffer mem p st = (false, st') ∧ st'.started = st.started ++ first ∧
      Pending buffer l st'.driver (if g.starts then some ⟨g.interface, []⟩ else none) ∧
      ∀ more gs, StartedFrom buffer mem l (st.started.length + first.length) more gs →
        StartedFrom buffer mem l st.started.length (first ++ more) (pend.toList ++ gs) := by
  obtain ⟨hdesc, htype, hlen⟩ := hg
  obtain ⟨first, hstarted, hdriver, hmore⟩ := @pending_flush buffer mem st l _ h hwf
  obtain ⟨hdev, hconf⟩ := h.ready.ne_none
  have hclear : Pending buffer l (startPending buffer mem st).clear.driver none :=
    Ready.clear (by rw [hdriver]; exact h.ready)
  have ht := hat.byte (k := 1) (by omega)
  have halt := hat.byte (k := 3) (by omega)
  have hnum := hat.byte (k := 4) (by omega)
  have hstep : walkStep buffer mem p st =
      if g.interface.at 3 ≠ 0 then (false, (startPending buffer mem st).clear)
      else if g.interface.at 4 = 0 then (false, (startPending buffer mem st).clear)
      else (false, { (startPending buffer mem st).clear with
        driver := { (startPending buffer mem st).clear.driver with interface := some p } }) := by
    rw [walkStep, WalkState.touch_in (by omega)]
    rw [hat.bLength hdesc, ht, htype, if_neg (by omega), if_neg (by omega), if_neg (by omega),
      if_pos ⟨rfl, hlen⟩, if_neg hdev, if_neg hconf, WalkState.touch_in (by omega), halt, hnum]
  rw [hstep]
  by_cases hno : g.interface.at 3 ≠ 0
  · refine ⟨_, first, if_pos hno, hstarted, ?_, hmore⟩
    rwa [if_neg (by simp [Group.starts, hno])]
  rw [if_neg hno]
  by_cases hzero : g.interface.at 4 = 0
  · refine ⟨_, first, if_pos hzero, hstarted, ?_, hmore⟩
    rwa [if_neg (by simp [Group.starts, hzero])]
  · refine ⟨_, first, if_neg hzero, hstarted, ?_, hmore⟩
    rw [if_pos (by simp only [Group.starts, Bool.and_eq_true, decide_eq_true_eq]; omega)]
    exact ⟨hclear.1.device, hclear.1.configuration, ⟨p, rfl, hat⟩, hclear.2.2.1, hclear.2.2.2⟩

theorem groups_walk (hnext : ∀ d r, l.tail = d :: r → d.at 1 = 2 ∧ 9 ≤ d.length) :
    ∀ (gs : List Group) (pend : Option Group) (p : Nat) (st : WalkState),
      (∀ g ∈ gs, g.WellFormed) → (∀ g, pend = some g → g.WellFormed) →
      Pending buffer l st.driver pend → Laid buffer p (gs.flatMap Group.all ++ l.tail) →
      ∃ fuel st' more, walk buffer mem fuel p st = some st' ∧ st'.started = st.started ++ more ∧
        StartedFrom buffer mem l st.started.length more (pend.toList ++ gs.filter Group.starts) := by
  intro gs
  induction gs with
  | nil =>
    intro pend p st _ hpwf hpend hlaid
    rw [filter_nil, append_nil]
    exact tail_walk hpwf hnext hpend hlaid
  | cons g gs ih =>
    intro pend p st hwf hpwf hpend hlaid
    have hg := hwf g mem_cons_self
    have hgs := fun e he => hwf e (.tail g he)
    rw [flatMap_cons, Group.all, append_assoc, cons_append] at hlaid
    rcases hlaid.cons_cases with ⟨hdesc, hat, hfits, hrest⟩ | ⟨-, hshort, -⟩
    · obtain ⟨st1, first, hstep, hstarted, hpend1, hmore⟩ :=
        @interface_step buffer mem st p l g hg.interface hat hfits pend hpwf hpend
      -- the items of the interface
      obtain ⟨p2, st2, ⟨hstarted2, n, hn⟩, hlaid2, hpend2⟩ :
          ∃ p2 st2, Leads buffer mem (roundUp (p + g.interface.length)) st1 p2 st2 ∧
            Laid buffer p2 (gs.flatMap Group.all ++ l.tail) ∧
            Pending buffer l st2.driver (if g.starts then some g else none) := by
        by_cases hs : g.starts = true
        · rw [if_pos hs] at hpend1 ⊢
          exact items_walk g.items [] _ st1 hg hrest hpend1
        · rw [if_neg hs] at hpend1 ⊢
          obtain ⟨p2, hleads, hlaid2⟩ := front_walk g.items _ st1 hg.items hrest hpend1
          exact ⟨p2, st1, hleads, hlaid2, hpend1⟩
      obtain ⟨fuel, st', more, hrun, hstarted', hfrom⟩ := ih _ p2 st2 hgs (fun e he => by
        split at he
        · cases he
          exact hg
        · cases he) hpend2 hlaid2
      have hcount : st2.started.length = st.started.length + first.length := by
        simp [hstarted2, hstarted]
      rw [hcount] at hfrom
      refine ⟨fuel + n + 1, st', first ++ more, ?_, ?_, ?_⟩
      · rw [walk_next hat hdesc hstep, hn, hrun]
      · rw [hstarted', hstarted2, hstarted, append_assoc]
      have hlist : (if g.starts = true then some g else none).toList ++ gs.filter Group.starts =
          (g :: gs).filter Group.starts := by
        by_cases hs : g.starts = true
        · rw [if_pos hs, filter_cons_of_pos hs]
          rfl
        · rw [if_neg hs, filter_cons_of_neg hs]
          rfl
      rw [hlist] at hfrom
      exact hmore more _ hfrom
    · have := hg.interface.2.2
      omega

variable {buffer p1 : Bytes} {mem : Nat → Bool} {st st' : WalkState} {p n size : Nat}
  {ds : List Desc} {l : DescList}

/-! ## More fuel -/

theorem copyLoop_mono {r : Bytes × Bool} : ∀ (fuel i j : Nat) (p0 : Bytes) (outside : Bool),
    copyLoop p1 size fuel i j p0 outside = some r →
      copyLoop p1 size (fuel + 1) i j p0 outside = some r := by
  intro fuel
  induction fuel with
  | zero => exact fun i j p0 outside h => by cases h
  | succ fuel ih =>
    intro i j p0 outside h
    rw [copyLoop] at h ⊢
    by_cases hmore : i + 2 < size
    · rw [if_pos hmore] at h ⊢
      by_cases hshort : (p1 i).toNat < 2
      · rwa [if_pos hshort] at h ⊢
      rw [if_neg hshort] at h ⊢
      by_cases hfull : roundUp j + (p1 i).toNat ≥ 0x0FF0
      · rwa [if_pos hfull] at h ⊢
      · rw [if_neg hfull] at h ⊢
        exact ih _ _ _ _ h
    · rwa [if_neg hmore] at h ⊢

theorem walk_mono : ∀ (fuel p : Nat) (st : WalkState), walk buffer mem fuel p st = some st' →
    walk buffer mem (fuel + 1) p st = some st' := by
  intro fuel
  induction fuel with
  | zero => exact fun p st h => by cases h
  | succ fuel ih =>
    intro p st h
    rw [walk] at h ⊢
    cases hstep : walkStep buffer mem p st with
    | mk stop st1 =>
      rw [hstep] at h
      cases stop with
      | true => exact h
      | false => exact ih _ _ h

variable {r : Bytes × WalkState} {fuel : Nat}

section

variable (h : usbAttach mem p1 size fuel = some r)
include h

theorem usbAttach_mono : usbAttach mem p1 size (fuel + 1) = some r := by
  rw [usbAttach] at h ⊢
  cases hcopy : copyLoop p1 size fuel 0 0 (fun _ => 0) false with
  | none =>
    rw [hcopy] at h
    cases h
  | some c =>
    obtain ⟨p0, outside⟩ := c
    rw [hcopy] at h
    rw [copyLoop_mono _ _ _ _ _ hcopy]
    dsimp only at h ⊢
    cases hwalk : walk p0 mem fuel 0 ⟨UsbDriver.zero, [], outside⟩ with
    | none =>
      rw [hwalk] at h
      cases h
    | some st =>
      rw [hwalk] at h
      rwa [walk_mono _ _ _ hwalk]

theorem usbAttach_add (k : Nat) : usbAttach mem p1 size (fuel + k) = some r := by
  induction k with
  | zero => exact h
  | succ k ih => exact usbAttach_mono ih

theorem usbAttach_unique {r' : Bytes × WalkState} {fuel' : Nat}
    (h' : usbAttach mem p1 size fuel' = some r') : r = r' := by
  have hr := usbAttach_add h fuel'
  have hr' := usbAttach_add h' fuel
  rw [add_comm, hr] at hr'
  exact some.inj hr'

end

theorem walk_add (h : walk buffer mem fuel p st = some st') (k : Nat) :
    walk buffer mem (fuel + k) p st = some st' := by
  induction k with
  | zero => exact h
  | succ k ih => exact walk_mono _ _ _ ih

theorem copyLoop_add {r : Bytes × Bool} {i j : Nat} {p0 : Bytes} {outside : Bool}
    (h : copyLoop p1 size fuel i j p0 outside = some r) (k : Nat) :
    copyLoop p1 size (fuel + k) i j p0 outside = some r := by
  induction k with
  | zero => exact h
  | succ k ih => exact copyLoop_mono _ _ _ _ _ ih

theorem list_walk (hwf : l.WellFormed) (hlaid : Laid buffer 0 l.all) (outside : Bool) :
    ∃ fuel st', walk buffer mem fuel 0 ⟨UsbDriver.zero, [], outside⟩ = some st' ∧
      StartsAll buffer mem l st' := by
  obtain ⟨hdesc, htype, hlen⟩ := hwf.device
  obtain ⟨hdesc', htype', hlen'⟩ := hwf.configuration
  rcases hlaid.cons_cases with ⟨-, hat, hfits, hrest⟩ | ⟨hnil, -⟩
  · rcases hrest.cons_cases with ⟨-, hat', hfits', hrest'⟩ | ⟨-, hshort, -⟩
    · obtain ⟨p, hp⟩ : ∃ p, p = roundUp (0 + l.device.length) := ⟨_, rfl⟩
      rw [← hp] at hat' hfits' hrest'
      obtain ⟨st1, hst1⟩ : ∃ st1 : WalkState,
          st1 = ⟨{ UsbDriver.zero with device := some 0 }, [], outside⟩ := ⟨_, rfl⟩
      obtain ⟨st2, hst2⟩ : ∃ st2 : WalkState, st2 =
          ⟨{ UsbDriver.zero with device := some 0, configuration := some p }, [], outside⟩ :=
        ⟨_, rfl⟩
      have hstep : walkStep buffer mem 0 ⟨UsbDriver.zero, [], outside⟩ = (false, st1) := by
        have ht := hat.byte (k := 1) (by omega)
        rw [walkStep, WalkState.touch_in (by decide)]
        rw [hat.bLength hdesc, ht, htype, if_neg (by omega), if_pos ⟨rfl, hlen⟩,
          if_neg (by simp [UsbDriver.zero]), hst1]
      have hstep' : walkStep buffer mem p st1 = (false, st2) := by
        have ht := hat'.byte (k := 1) (by omega)
        rw [walkStep, WalkState.touch_in (by omega)]
        rw [hat'.bLength hdesc', ht, htype', if_neg (by omega), if_neg (by omega),
          if_pos ⟨rfl, hlen'⟩, hst1, if_neg (by simp), startPending_none rfl,
          if_neg (by simp [UsbDriver.zero]), hst2]
        rfl
      have hpend : Pending buffer l st2.driver none := by
        rw [hst2]
        exact ⟨⟨⟨0, rfl, hat⟩, ⟨p, rfl, hat'⟩⟩, rfl, rfl, fun _ => rfl⟩
      obtain ⟨p3, ⟨-, n, hn⟩, hlaid3⟩ := @front_walk buffer mem _ l l.front _ st2 hwf.front hrest' hpend
      obtain ⟨fuel, st', more, hrun, hstarted, hfrom⟩ := @groups_walk buffer mem l hwf.next l.groups
        none p3 st2 hwf.groups (fun g hg => by cases hg) hpend hlaid3
      rw [hst2] at hstarted hfrom
      refine ⟨fuel + n + 1 + 1, st', ?_, ?_⟩
      · rw [walk_next hat hdesc hstep, ← hp, walk_next hat' hdesc' hstep', hn, hrun]
      · rw [StartsAll, hstarted]
        refine ⟨hfrom.drives, ?_⟩
        rw [range_eq_range']
        exact hfrom.memory
    · omega
  · cases hnil

theorem two_mul_length (h : ∀ d ∈ ds, IsDesc d) : 2 * ds.length ≤ ds.flatten.length := by
  induction ds with
  | nil => rfl
  | cons d ds ih =>
    have hd := (h d mem_cons_self).1
    have hrest := ih fun e he => h e (.tail d he)
    rw [flatten_cons, length_append, length_cons]
    omega

theorem DescList.WellFormed.isDesc (h : l.WellFormed) : ∀ d ∈ l.all, IsDesc d := by
  intro d hd
  simp only [DescList.all, mem_cons, mem_append, mem_flatMap, Group.all] at hd
  rcases hd with rfl | rfl | hd | ⟨g, hg, rfl | hd⟩ | hd
  · exact h.device.1
  · exact h.configuration.1
  · exact (h.front d hd).1
  · exact (h.groups g hg).interface.1
  · exact ((h.groups g hg).items d hd).1
  · exact h.tail d hd

/-- **Attaching a device** ends, with no access behind a buffer, whatever the
device has returned; and if this is a list that is well formed and fits, each
interface of the first configuration is started once. -/
theorem usb_attach_starts (mem : Nat → Bool) (p1 : Bytes) (size : Nat) (hsize : size ≤ 0x1000) :
    ∃ fuel p0 st, usbAttach mem p1 size fuel = some (p0, st) ∧ st.outside = false ∧
      ∀ l : DescList, l.WellFormed → Holds p1 size l.all → FitsFrom 0 l.all →
        StartsAll p0 mem l st := by
  obtain ⟨p0, hcopy, hplaced, -⟩ := @copyLoop_spec p1 size hsize 0x1002 0 0 (fun _ => 0) false
    (by decide) (by omega) (le_refl 0) (by decide) (fun _ _ => rfl)
  have hzero : roundUp 0 = 0 := by decide
  rw [hzero] at hplaced
  obtain ⟨fuel, st, hwalk, hout⟩ := @walk_inside p0 mem _ 0 ⟨UsbDriver.zero, [], false⟩ hplaced
    (fun a ha => by cases ha)
  refine ⟨0x1002 + fuel, p0, st, ?_, hout, fun l hwf hholds hfits => ?_⟩
  · rw [usbAttach, copyLoop_add hcopy]
    dsimp only
    rw [add_comm, walk_add hwalk]
    rfl
  have hlen := two_mul_length hwf.isDesc
  obtain ⟨hsize', hbytes⟩ := hholds
  have hcopied := @copied_eq p1 size l.all 0x1002 0 0 (by omega) hwf.isDesc
    (by rw [zero_add]; exact hsize') (fun k hk => by
      rw [zero_add]
      exact hbytes k (by omega)) hfits
  have hlaid : Laid p0 0 l.all := by
    rcases hcopied with heq | ⟨last, heq, hlast⟩
    · rw [heq] at hplaced
      exact Or.inl hplaced
    · exact Or.inr ⟨_, last, heq, hlast, hplaced⟩
  obtain ⟨fuel', st', hwalk', hstarts⟩ := @list_walk p0 mem _ hwf hlaid false
  have hsame := walk_add hwalk fuel'
  have hsame' := walk_add hwalk' fuel
  rw [add_comm, hsame'] at hsame
  exact some.inj hsame ▸ hstarts

/-! ## Two devices -/

def sampleDevice : Desc := [18, 1] ++ replicate 16 0

def sampleConfiguration : Desc := [9, 2] ++ replicate 7 0

/-- A device with one interface, behind some descriptors of its class. -/
def sampleList (front : List Desc) : DescList where
  device := sampleDevice
  configuration := sampleConfiguration
  front := front
  groups := [⟨[9, 4, 0, 0, 1, 8, 6, 80, 0], [[7, 5, 0x81, 2, 0, 2, 0]]⟩]
  tail := []

instance (d : Desc) : Decidable (IsDesc d) := inferInstanceAs (Decidable (_ ∧ _))

instance (d : Desc) : Decidable (IsItem d) := inferInstanceAs (Decidable (_ ∧ _))

theorem sampleList_wellFormed {front : List Desc} (h : ∀ d ∈ front, IsItem d) :
    (sampleList front).WellFormed where
  device :=
    (by decide : IsDesc sampleDevice ∧ sampleDevice.at 1 = 1 ∧ 18 ≤ sampleDevice.length)
  configuration := (by decide : IsDesc sampleConfiguration ∧ sampleConfiguration.at 1 = 2 ∧
    9 ≤ sampleConfiguration.length)
  front := h
  groups g hg := by
    obtain rfl := mem_singleton.mp hg
    refine ⟨by decide, fun d hd => ?_, by decide, by decide, by decide⟩
    obtain rfl := mem_singleton.mp hd
    decide
  tail := forall_mem_nil _
  next d r h := by cases h

def sampleBytes (front : List Desc) : Bytes := fun k => (sampleList front).all.flatten.getD k 0

theorem usb_attach_one : ∃ fuel p0 st,
    usbAttach (fun _ => true) (sampleBytes []) 43 fuel = some (p0, st) ∧ st.outside = false ∧
      StartsAll p0 (fun _ => true) (sampleList []) st := by
  obtain ⟨fuel, p0, st, hrun, hout, hstarts⟩ :=
    usb_attach_starts (fun _ => true) (sampleBytes []) 43 (by decide)
  exact ⟨fuel, p0, st, hrun, hout, hstarts _ (sampleList_wellFormed (forall_mem_nil _))
    ⟨by decide, fun _ _ => rfl⟩ ⟨by decide, by decide, by decide, by decide, trivial⟩⟩

def longFront : List Desc := replicate 16 ([241, 36] ++ replicate 239 0)

theorem longFront_items : ∀ d ∈ longFront, IsItem d := by
  intro d hd
  obtain rfl := eq_of_mem_replicate hd
  decide +kernel

theorem getD_flatten_replicate (d : Desc) (r : List UInt8) (n : Nat) : ∀ k,
    ((replicate n d).flatten ++ r).getD k 0 =
      if k < n * d.length then d.getD (k % d.length) 0 else r.getD (k - n * d.length) 0 := by
  induction n with
  | zero => simp
  | succ n ih =>
    intro k
    rw [replicate_succ, flatten_cons, append_assoc, Nat.succ_mul]
    rcases lt_or_ge k d.length with hk | hk
    · rw [getD_append _ _ _ _ hk, if_pos (by omega), Nat.mod_eq_of_lt hk]
    · rw [getD_append_right _ _ _ _ hk, ih, ← Nat.mod_eq_sub_mod hk, Nat.sub_sub, add_comm]
      simp only [Nat.sub_lt_iff_lt_add hk]

/-- `sampleBytes longFront` without a list. -/
def longBytes (k : Nat) : UInt8 :=
  if k < 27 then (sampleDevice ++ sampleConfiguration).getD k 0
  else if k - 27 < 16 * 241 then ([241, 36] ++ replicate 239 0 : Desc).getD ((k - 27) % 241) 0
  else ((sampleList []).all.flatten.drop 27).getD (k - 27 - 16 * 241) 0

theorem sampleBytes_longFront : sampleBytes longFront = longBytes := by
  funext k
  have hall : (sampleList longFront).all.flatten = sampleDevice ++ sampleConfiguration ++
      (longFront.flatten ++ (sampleList []).all.flatten.drop 27) := by
    simp only [DescList.all, sampleList, flatten_cons, flatten_append, append_assoc]
    rfl
  have hlen : ([241, 36] ++ replicate 239 0 : Desc).length = 241 := by
    rw [length_append, length_replicate]
    rfl
  rw [sampleBytes, hall, longBytes]
  split
  · next h => rw [getD_append _ _ _ _ h]
  · next h =>
    rw [getD_append_right _ _ _ _ (Nat.le_of_not_lt h), longFront, getD_flatten_replicate, hlen]
    rfl

/-- The interface behind them does not fit, and is not started. -/
theorem usb_attach_long : ¬ ∀ (mem : Nat → Bool) (p1 : Bytes) (size : Nat) (l : DescList),
    size ≤ 0x1000 → l.WellFormed → Holds p1 size l.all →
      ∃ fuel p0 st, usbAttach mem p1 size fuel = some (p0, st) ∧ StartsAll p0 mem l st := by
  intro h
  obtain ⟨fuel, p0, st, hrun, hstarts⟩ := h (fun _ => true) (sampleBytes longFront) 3899
    (sampleList longFront) (by decide) (sampleList_wellFormed longFront_items)
    ⟨by decide +kernel, fun _ _ => rfl⟩
  have hnone : (usbAttach (fun _ => true) (sampleBytes longFront) 3899 40).map
      (fun r => r.2.started.length) = some 0 := by
    rw [sampleBytes_longFront]
    decide +kernel
  obtain ⟨r, hr, hlen⟩ := Option.map_eq_some_iff.mp hnone
  rw [← usbAttach_unique hrun hr] at hlen
  have hcount := hstarts.1.length_eq
  rw [show st.started.length = 0 from hlen] at hcount
  exact absurd hcount (by decide)

end Dancy.Usb
