import Dancy.Lib.Transfer

/-!
# Transfers of the block drivers (`pci/ahci.c`, `pci/ide_ctrl.c`)

Both drivers hand a request to the device in units of at most `0xFE00` bytes,
through a buffer of their own, and fall back to a single sector when a unit
fails. The loop is one definition; what a command does is the driver's.
-/

namespace Dancy.Block

open Lib

/-- The `DE_*` codes of the block drivers. -/
inductive DeviceError where
  | alignment
  | blockRead
  | blockWrite
  | busy
  | memory
  | overflow
  | unexpected
  | unsupported
  | mediaChanged
  | addressMark
  | readOnly
  | empty
  | overrun
  | checksum
deriving DecidableEq

/-- `write_mode ? DE_BLOCK_WRITE : DE_BLOCK_READ` -/
def blockError (write : Bool) : DeviceError := if write then .blockWrite else .blockRead

/-- A command as the device takes it: the sectors, and the bytes of the driver's buffer. -/
structure Command where
  write : Bool
  (lba count bytes : Nat)

/-- What the device does with a command. One that fails may move anything. -/
structure Outcome where
  done : Bool
  moved : Nat
  left : Bytes

structure Machine where
  (device memory buffer : Bytes)
  attempts : Nat
  issued : List Command

def Machine.idle (device memory buffer : Bytes) (attempts : Nat) : Machine :=
  ⟨device, memory, buffer, attempts, []⟩

/-- The sectors of a written command afterwards. -/
def Outcome.written (o : Outcome) (c : Command) (m : Machine) : Bytes :=
  if o.done then m.device.copy (c.lba * 512) m.buffer 0 (c.count * 512)
  else m.device.copy (c.lba * 512) o.left 0 (min o.moved (c.count * 512))

/-- The driver's buffer after a command that reads. -/
def Outcome.fetched (o : Outcome) (c : Command) (m : Machine) : Bytes :=
  if o.done then m.buffer.copy 0 m.device (c.lba * 512) (c.count * 512)
  else m.buffer.copy 0 o.left 0 (min o.moved (c.count * 512))

def Machine.perform (o : Outcome) (c : Command) (m : Machine) : Machine :=
  if c.write then { m with device := o.written c m, issued := m.issued ++ [c] }
  else { m with buffer := o.fetched c m, issued := m.issued ++ [c] }

/-- The number of sectors from the IDENTIFY data: words 60 and 61, or words 100 to 103. -/
def identifySectors (p8 : Bytes) : Nat :=
  let sectors := p8.dword (60 * 2)
  let s48 := p8.dword (100 * 2) + 2 ^ 32 * p8.dword (100 * 2 + 4)
  if (p8.word (83 * 2)).testBit 10 ∧ s48 ≠ 0 ∧ s48 ≤ 0xFFFFFFFFFFFF ∧ sectors < s48 then s48
  else sectors

theorem identifySectors_lt (p8 : Bytes) : identifySectors p8 < 2 ^ 48 := by
  unfold identifySectors
  dsimp only
  split
  · omega
  · exact Nat.lt_trans Bytes.dword_lt (by decide)

/-- A driver's command: the direction, the first sector and their number. -/
abbrev Driver := Bool → Nat → Nat → Machine → Option DeviceError × Machine

/-- What a call reports: the return value and the size. -/
structure Report where
  error : Option DeviceError
  size : Nat
  machine : Machine

/-- The unit that starts at `lba`, clipped at the end of the device. -/
def clipUnit (sectorCount lba unitSize : Nat) : Option Nat :=
  if sectorCount < lba + unitSize / 512 then
    if sectorCount ≤ lba then none else some (512 * (sectorCount - lba))
  else some unitSize

/-- A unit, and its first sector alone after an error. -/
def transferUnit (command : Driver) (write : Bool) (lba unitSize : Nat) (m : Machine) :
    Option DeviceError × Nat × Machine :=
  match command write lba (unitSize / 512) m with
  | (none, m1) => (none, unitSize, m1)
  | (some _, m1) => ((command write lba 1 m1).1, 512, (command write lba 1 m1).2)

/-- `memcpy` into the driver's buffer -/
def stage (write : Bool) (address unitSize : Nat) (m : Machine) : Machine :=
  if write then { m with buffer := m.buffer.copy 0 m.memory address unitSize } else m

/-- `memcpy` out of the driver's buffer -/
def deliver (write : Bool) (address unitSize : Nat) (m : Machine) : Machine :=
  if write then m else { m with memory := m.memory.copy address m.buffer 0 unitSize }

/-- `while (transfer_size < requested_size)` -/
def transferLoop (command : Driver) (sectorCount : Nat) (write : Bool) (address requested : Nat) :
    Nat → Nat → Nat → Machine → Report
  | 0, _, done, m => ⟨none, done, m⟩
  | fuel + 1, lba, done, m =>
    if done < requested then
      match clipUnit sectorCount lba (min 0xFE00 (requested - done)) with
      | none => ⟨none, done, m⟩
      | some unitSize =>
        match transferUnit command write lba unitSize (stage write (address + done) unitSize m) with
        | (some e, _, m1) => ⟨some e, done, m1⟩
        | (none, n, m1) =>
          transferLoop command sectorCount write address requested fuel (lba + n / 512) (done + n)
            (deliver write (address + done) n m1)
    else ⟨none, done, m⟩

/-- A command of the driver as the loop sees it. -/
structure Served (quiet : Prop) (write : Bool) (lba count : Nat) (m : Machine)
    (r : Option DeviceError) (m' : Machine) : Prop where
  memory : m'.memory = m.memory
  buffer : write = true → ∀ k, k < 0xFE00 → m'.buffer k = m.buffer k
  device : write = false → m'.device = m.device
  fetched : r = none → write = false → ∀ k, k < count * 512 → m'.buffer k = m.device (lba * 512 + k)
  written : r = none → write = true → m'.device = m.device.copy (lba * 512) m.buffer 0 (count * 512)
  outside : write = true → ∀ k, k < lba * 512 ∨ (lba + count) * 512 ≤ k → m'.device k = m.device k
  still : quiet → r ≠ none → m'.device = m.device
  issued : ∀ c ∈ m'.issued, c ∈ m.issued ∨ c = ⟨write, lba, count, count * 512⟩

/-- A command for whole sectors of the device, no larger than the buffer. -/
structure Fits (write : Bool) (sectorCount limit : Nat) (c : Command) : Prop where
  direction : c.write = write
  sectors : c.lba + c.count ≤ sectorCount
  whole : c.bytes = c.count * 512
  room : c.bytes ≤ limit

theorem Served.refused {quiet : Prop} {write : Bool} {lba count : Nat} {m m' : Machine}
    (e : DeviceError) (hd : m'.device = m.device) (hm : m'.memory = m.memory)
    (hb : write = true → ∀ k, k < 0xFE00 → m'.buffer k = m.buffer k) (hi : m'.issued = m.issued) :
    Served quiet write lba count m (some e) m' where
  memory := hm
  buffer := hb
  device _ := hd
  fetched h := by cases h
  written h := by cases h
  outside _ k _ := congrFun hd k
  still _ _ := hd
  issued c hc := Or.inl (hi ▸ hc)

theorem Outcome.written_outside (o : Outcome) (c : Command) (m : Machine) {k : Nat}
    (h : k < c.lba * 512 ∨ (c.lba + c.count) * 512 ≤ k) : o.written c m k = m.device k := by
  have hmin : min o.moved (c.count * 512) ≤ c.count * 512 := Nat.min_le_right _ _
  rw [Nat.add_mul] at h
  unfold Outcome.written
  split
  · exact Bytes.copy_outside h
  · exact Bytes.copy_outside (h.imp_right fun h => Nat.le_trans (Nat.add_le_add_left hmin _) h)

theorem Served.perform {quiet : Prop} (o : Outcome) (write : Bool) (lba count : Nat) (m : Machine)
    (e : DeviceError) (hq : quiet → o.moved = 0) :
    Served quiet write lba count m (if o.done = true then none else some e)
      (m.perform o ⟨write, lba, count, count * 512⟩) := by
  have hissued : ∀ c ∈ (m.perform o ⟨write, lba, count, count * 512⟩).issued,
      c ∈ m.issued ∨ c = ⟨write, lba, count, count * 512⟩ := by
    cases write <;> simp [Machine.perform]
  cases write with
  | false =>
    refine ⟨rfl, fun h => Bool.noConfusion h, fun _ => rfl, fun hr _ k hk => ?_,
      fun _ h => Bool.noConfusion h, fun h => Bool.noConfusion h, fun _ _ => rfl, hissued⟩
    have hdone : o.done = true := by
      by_contra hdone
      rw [if_neg hdone] at hr
      cases hr
    change o.fetched _ m k = _
    rw [Outcome.fetched, if_pos hdone,
      Bytes.copy_inside (Nat.zero_le _) (by rw [Nat.zero_add]; exact hk), Nat.sub_zero]
  | true =>
    refine ⟨rfl, fun _ _ _ => rfl, fun h => Bool.noConfusion h, fun _ h => Bool.noConfusion h,
      fun hr _ => ?_, fun _ k hk => ?_, fun q hr => ?_, hissued⟩
    · have hdone : o.done = true := by
        by_contra hdone
        rw [if_neg hdone] at hr
        cases hr
      exact if_pos hdone
    · exact o.written_outside _ m hk
    · have hdone : ¬ o.done = true := fun hdone => hr (if_pos hdone)
      change o.written _ m = _
      rw [Outcome.written, if_neg hdone, hq q, Nat.zero_min, Bytes.copy_zero]

variable {r : Option DeviceError}

/-- What the driver does to its buffer before the command leaves what is to be written. -/
theorem Served.prepared {quiet : Prop} {write : Bool} {lba count : Nat} {m m1 m' : Machine}
    (h : Served quiet write lba count m1 r m') (hd : m1.device = m.device)
    (hm : m1.memory = m.memory) (hb : write = true → ∀ k, k < 0xFE00 → m1.buffer k = m.buffer k)
    (hi : m1.issued = m.issued) (hc : count ≤ 127) : Served quiet write lba count m r m' where
  memory := h.memory.trans hm
  buffer hw k hk := (h.buffer hw k hk).trans (hb hw k hk)
  device hw := (h.device hw).trans hd
  fetched hr hw k hk := (h.fetched hr hw k hk).trans (congrFun hd _)
  written hr hw := by
    rw [h.written hr hw, hd]
    refine Bytes.copy_congr fun k hk => ?_
    rw [Nat.zero_add]
    exact hb hw k (by omega)
  outside hw k hk := (h.outside hw k hk).trans (congrFun hd k)
  still q hr := (h.still q hr).trans hd
  issued c hc := hi ▸ h.issued c hc

/-! ## The units -/

variable {command : Driver} {quiet : Prop} {write : Bool}
variable {sectorCount offset address requested lba done unitSize : Nat} {m : Machine}
variable {device memory : Bytes}

/-- A driver whose commands are served wherever the loop sends them. -/
def Serves (command : Driver) (quiet : Prop) (sectorCount : Nat) : Prop :=
  ∀ write lba count m, 0 < count → count ≤ 127 → lba + count ≤ sectorCount →
    Served quiet write lba count m (command write lba count m).1 (command write lba count m).2

structure Standing (quiet : Prop) (write : Bool) (sectorCount offset address requested : Nat)
    (device memory : Bytes) (done : Nat) (m : Machine) : Prop where
  progress : Progress write quiet offset address requested device memory done m.device m.memory
  whole : done % 512 = 0
  inside : done = 0 ∨ offset + done ≤ sectorCount * 512
  fits : ∀ c ∈ m.issued, Fits write sectorCount 0xFE00 c

theorem Standing.start (hm : m.issued = []) :
    Standing quiet write sectorCount offset address requested m.device m.memory 0 m where
  progress := Progress.start
  whole := rfl
  inside := Or.inl rfl
  fits c hc := by rw [hm] at hc; cases hc

theorem clipUnit_eq_none (h : clipUnit sectorCount lba unitSize = none) :
    sectorCount ≤ lba := by
  unfold clipUnit at h
  split at h
  · split at h
    · assumption
    · cases h
  · cases h

theorem clipUnit_eq_some {n u : Nat} (hu : u = min 0xFE00 n) (hpos : 0 < n) (hn : n % 512 = 0)
    (h : clipUnit sectorCount lba u = some unitSize) :
    0 < unitSize / 512 ∧ unitSize / 512 ≤ 127 ∧ unitSize = unitSize / 512 * 512 ∧ unitSize ≤ n ∧
      lba + unitSize / 512 ≤ sectorCount := by
  unfold clipUnit at h
  split at h
  · split at h
    · cases h
    · cases h
      omega
  · cases h
    omega

variable {count : Nat} {m' : Machine}

section

variable (hc : count ≤ 127) (hend : lba + count ≤ sectorCount)
include hc hend

theorem Served.fits (hs : Served quiet write lba count m r m')
    (hm : ∀ c ∈ m.issued, Fits write sectorCount 0xFE00 c) :
    ∀ c ∈ m'.issued, Fits write sectorCount 0xFE00 c := by
  intro c hmem
  rcases hs.issued c hmem with hold | rfl
  · exact hm c hold
  · exact ⟨rfl, hend, rfl, by change count * 512 ≤ 0xFE00; omega⟩

theorem Standing.failed {e : DeviceError} (hlba : lba * 512 = offset + done)
    (hreq : done + count * 512 ≤ requested)
    (h : Standing quiet write sectorCount offset address requested device memory done m)
    (hs : Served quiet write lba count m (some e) m') :
    Standing quiet write sectorCount offset address requested device memory done m' := by
  refine ⟨?_, h.whole, h.inside, hs.fits hc hend h.fits⟩
  rw [hs.memory]
  cases write with
  | false =>
    rw [hs.device rfl]
    exact h.progress
  | true =>
    refine h.progress.disturbed (fun k hk => hs.outside rfl k ?_)
      fun q => hs.still q (by simp)
    omega

theorem Standing.succeeded (hlba : lba * 512 = offset + done)
    (hreq : done + count * 512 ≤ requested)
    (hb : write = true → ∀ k, k < count * 512 → m.buffer k = m.memory (address + done + k))
    (h : Standing quiet write sectorCount offset address requested device memory done m)
    (hs : Served quiet write lba count m none m') :
    Standing quiet write sectorCount offset address requested device memory (done + count * 512)
      (deliver write (address + done) (count * 512) m') := by
  have hw : (done + count * 512) % 512 = 0 := by have := h.whole; omega
  have hin : done + count * 512 = 0 ∨ offset + (done + count * 512) ≤ sectorCount * 512 := by omega
  have hf := hs.fits hc hend h.fits
  cases write with
  | false =>
    refine ⟨?_, hw, hin, hf⟩
    simp only [deliver]
    rw [hs.device rfl, hs.memory]
    refine h.progress.readUnit hreq fun k hk => ?_
    rw [hs.fetched rfl rfl k hk, hlba]
  | true =>
    refine ⟨?_, hw, hin, hf⟩
    simp only [deliver, if_true]
    rw [hs.written rfl rfl, hs.memory, hlba]
    exact h.progress.writeUnit hreq (hb rfl)

end

theorem transferUnit_standing {n : Nat} (hserves : Serves command quiet sectorCount)
    (hpos : 0 < unitSize / 512) (hle : unitSize / 512 ≤ 127)
    (hunit : unitSize = unitSize / 512 * 512) (hreq : done + unitSize ≤ requested)
    (hend : lba + unitSize / 512 ≤ sectorCount) (hlba : lba * 512 = offset + done)
    (hb : write = true → ∀ k, k < unitSize → m.buffer k = m.memory (address + done + k))
    (h : Standing quiet write sectorCount offset address requested device memory done m)
    (he : transferUnit command write lba unitSize m = (r, n, m')) :
    (r ≠ none → Standing quiet write sectorCount offset address requested device memory done m') ∧
      (r = none → 0 < n ∧ n % 512 = 0 ∧
        Standing quiet write sectorCount offset address requested device memory (done + n)
          (deliver write (address + done) n m')) := by
  have hfirst := hserves write lba (unitSize / 512) m hpos hle hend
  unfold transferUnit at he
  generalize command write lba (unitSize / 512) m = first at hfirst he
  obtain ⟨r1, m1⟩ := first
  cases r1 with
  | none =>
    cases he
    refine ⟨fun h => absurd rfl h, fun _ => ⟨by omega, by omega, ?_⟩⟩
    have hs := h.succeeded hle hend hlba (by omega)
      (fun hw k hk => hb hw k (by omega)) hfirst
    rwa [← hunit] at hs
  | some e =>
    have h1 := h.failed hle hend hlba (by omega) hfirst
    have hsecond := hserves write lba 1 m1 Nat.one_pos (by omega) (by omega)
    dsimp only at he
    generalize command write lba 1 m1 = second at hsecond he
    obtain ⟨r2, m2⟩ := second
    cases he
    cases r2 with
    | some e2 =>
      refine ⟨fun _ => h1.failed (by omega) (by omega) hlba (by omega) hsecond, fun h => ?_⟩
      cases h
    | none =>
      refine ⟨fun h => absurd rfl h, fun _ => ⟨by omega, rfl, ?_⟩⟩
      refine h1.succeeded (by omega) (by omega) hlba (by omega) (fun hw k hk => ?_) hsecond
      rw [hfirst.buffer hw k (by omega), hfirst.memory]
      exact hb hw k (by omega)

/-- What a call that started from `m` reports. -/
structure Reported (write : Bool) (quiet : Prop) (sectorCount offset address requested : Nat)
    (m : Machine) (t : Report) : Prop where
  whole : t.size % 512 = 0
  progress : Progress write quiet offset address requested m.device m.memory t.size
    t.machine.device t.machine.memory
  fits : ∀ c ∈ t.machine.issued, Fits write sectorCount 0xFE00 c
  complete : t.error = none → t.size = min requested (sectorCount * 512 - offset)

theorem stage_standing (h : Standing quiet write sectorCount offset address requested device memory done m) :
    Standing quiet write sectorCount offset address requested device memory done
      (stage write (address + done) unitSize m) := by
  unfold stage
  split <;> exact ⟨h.progress, h.whole, h.inside, h.fits⟩

theorem stage_buffer (hw : write = true) (k : Nat) (hk : k < unitSize) :
    (stage write (address + done) unitSize m).buffer k =
      (stage write (address + done) unitSize m).memory (address + done + k) := by
  unfold stage
  rw [if_pos hw]
  exact Bytes.copy_inside (by omega) (by omega)

theorem transferLoop_reported (hserves : Serves command quiet sectorCount)
    (ho : offset % 512 = 0) (hr : requested % 512 = 0) {start : Machine} :
    ∀ (fuel lba done : Nat) (m : Machine), requested - done ≤ fuel → lba * 512 = offset + done →
      Standing quiet write sectorCount offset address requested start.device start.memory done m →
      Reported write quiet sectorCount offset address requested start
        (transferLoop command sectorCount write address requested fuel lba done m) := by
  intro fuel
  induction fuel with
  | zero =>
    intro lba done m hfuel hlba h
    have hle := h.progress.le
    have hin := h.inside
    exact ⟨h.whole, h.progress, h.fits, fun _ => by change done = _; omega⟩
  | succ fuel ih =>
    intro lba done m hfuel hlba h
    have hle := h.progress.le
    have hin := h.inside
    rw [transferLoop]
    split
    · cases hc : clipUnit sectorCount lba (min 0xFE00 (requested - done)) with
      | none =>
        have hpast := clipUnit_eq_none hc
        exact ⟨h.whole, h.progress, h.fits, fun _ => by change done = _; omega⟩
      | some unitSize =>
        obtain ⟨hpos, hle127, hunit, hreq, hend⟩ := clipUnit_eq_some rfl (by omega) (by omega) hc
        dsimp only
        generalize he : transferUnit command write lba unitSize
          (stage write (address + done) unitSize m) = t
        obtain ⟨r, n, m'⟩ := t
        have hstep := transferUnit_standing hserves hpos hle127 hunit (by omega) hend hlba
          (fun hw k hk => stage_buffer hw k hk) (stage_standing h) he
        cases r with
        | some e =>
          have hs := hstep.1 (by simp)
          exact ⟨hs.whole, hs.progress, hs.fits, fun h => by cases h⟩
        | none =>
          obtain ⟨hn, hn512, hs⟩ := hstep.2 rfl
          have hnext : (lba + n / 512) * 512 = offset + (done + n) := by
            rw [Nat.add_mul, Nat.div_mul_cancel (Nat.dvd_of_mod_eq_zero hn512), hlba,
              Nat.add_assoc]
          exact ih (lba + n / 512) (done + n) _ (by omega) hnext hs
    · exact ⟨h.whole, h.progress, h.fits, fun _ => by change done = _; omega⟩

theorem Reported.refused {e : DeviceError} (h : m.issued = []) :
    Reported write quiet sectorCount offset address requested m ⟨some e, 0, m⟩ where
  whole := rfl
  progress := Progress.start
  fits c hc := by rw [h] at hc; cases hc
  complete h := by cases h

end Dancy.Block
