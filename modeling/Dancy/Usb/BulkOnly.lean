import Dancy.Block.Units
import Mathlib.Data.Nat.Bitwise

/-!
# USB storage transfers (`usb/usb_msc.c`)

A command has three stages: its wrapper goes out, the data goes either way, and
a status comes back. Each stage has its own result and actual length, all of
them as the device likes.
-/

namespace Dancy.Usb.BulkOnly

open Lib

/-- The `DE_*` codes of these functions. -/
inductive MscError where
  | mediaChanged
  | argument
  | unexpected
  | read
  | alignment
  | overflow
  | endpoint (r : Nat)

/-- What `u_write_endpoint` returns, the size afterwards, and what arrived. -/
structure EndpointReply where
  error : Option Nat
  actual : Nat
  data : Bytes

/-- What a device does with one command. The second replies are those after a stall. -/
structure Reply where
  present : Bool
  (cbw data dataAgain csw cswAgain : EndpointReply)

/-- `moved` has the bytes of the disk that completed commands delivered or accepted. -/
structure Host where
  memory : Bytes
  moved : Nat → Option UInt8
  commands : List Block.Command
  calls : Nat

/-- What READ CAPACITY left in the state: the last sector, and the size of a sector. -/
structure Capacity where
  (lba val : Nat)
  small : lba < 0xFFFFFFFF
  aligned : 0x200 ≤ val ∧ val ≤ 0x1000 ∧ val &&& (val - 1) = 0

def Capacity.diskSize (c : Capacity) : Nat := (1 + c.lba) * c.val

def be32 (b : Bytes) (i : Nat) : Nat :=
  2 ^ 24 * (b i).toNat + 2 ^ 16 * (b (i + 1)).toNat + 2 ^ 8 * (b (i + 2)).toNat + (b (i + 3)).toNat

/-! ## A command -/

/-- The command block of `scsi_read` and `scsi_write`. -/
def scsiBlock (write : Bool) (lba count : Nat) : Bytes :=
  let c : Bytes := fun _ => 0
  let c := c.setByte 0 (if write then 0x2A else 0x28)
  let c := c.setByte 2 (lba / 2 ^ 24)
  let c := c.setByte 3 (lba / 2 ^ 16)
  let c := c.setByte 4 (lba / 2 ^ 8)
  let c := c.setByte 5 lba
  let c := c.setByte 7 (count / 2 ^ 8)
  c.setByte 8 count

def commandWrapper (deviceToHost : Bool) (lun : Nat) (cbwcb : Bytes) (cbwcbSize bufferSize : Nat) :
    Bytes :=
  let cbw : Bytes := fun _ => 0
  let cbw := cbw.setDword 0x00 0x43425355
  let cbw := cbw.setDword 0x04 0
  let cbw := cbw.setDword 0x08 bufferSize
  let cbw := cbw.setByte 0x0C (if deviceToHost then 0x80 else 0x00)
  let cbw := cbw.setByte 0x0D lun
  let cbw := cbw.setByte 0x0E cbwcbSize
  cbw.copy 0x0F cbwcb 0 cbwcbSize

/-- READ(10) and WRITE(10) as the device reads them out of a wrapper. -/
def decode (cbw : Bytes) : Option Block.Command :=
  if cbw.dword 0 = 0x43425355 ∧ cbw 0x0E = 10 ∧
      (cbw 0x0F = 0x28 ∧ cbw 0x0C = 0x80 ∨ cbw 0x0F = 0x2A ∧ cbw 0x0C = 0) then
    some
      { write := cbw 0x0F = 0x2A
        lba := be32 cbw 0x11
        count := 2 ^ 8 * (cbw 0x16).toNat + (cbw 0x17).toNat
        bytes := cbw.dword 0x08 }
  else none

/-- A stage whose data goes to memory, or one that leaves memory alone. -/
def EndpointReply.store (r : EndpointReply) (deviceToHost : Bool) (address size : Nat) (memory : Bytes) :
    Bytes :=
  if deviceToHost then memory.copy address r.data 0 (min r.actual size) else memory

def Reply.lastData (r : Reply) : EndpointReply := if r.data.error = none then r.data else r.dataAgain

def Reply.dataStage (r : Reply) (deviceToHost : Bool) (address size : Nat) (memory : Bytes) : Bytes :=
  let memory := r.data.store deviceToHost address size memory
  if r.data.error = none then memory else r.dataAgain.store deviceToHost address size memory

/-- The command status wrapper, as it is in `csw` when its stage ends. -/
def Reply.status (r : Reply) : Bytes :=
  let csw := r.csw.store true 0 13 fun _ => 0
  if r.csw.error = none then csw else r.cswAgain.store true 0 13 csw

/-- The checks of the command status wrapper. -/
def Reply.cswStage (r : Reply) : Option MscError :=
  let last := if r.csw.error = none then r.csw else r.cswAgain
  let csw := r.status
  let error := last.error.map .endpoint
  let error := if error = none ∧ last.actual ≠ 13 then some .unexpected else error
  let error := if error = none ∧ csw.dword 0 ≠ 0x53425355 then some .unexpected else error
  if csw 12 ≠ 0 then some .read else error

/-- `dCSWDataResidue`: by how much the device fell short of the bytes it was asked for. -/
def Reply.residue (r : Reply) : Nat := r.status.dword 8

/-- The bytes of a command that the device moved: they came over the wire, and the status
wrapper counts them. -/
def Reply.processed (r : Reply) (size : Nat) : Nat := min r.lastData.actual (size - r.residue)

/-- The bytes of a completed command, on the disk. -/
def register (blockSize : Nat) (r : Reply) (address size : Nat) (memory : Bytes)
    (c : Block.Command) (moved : Nat → Option UInt8) : Nat → Option UInt8 := fun i =>
  if c.lba * blockSize ≤ i ∧ i < c.lba * blockSize + r.processed size then
    let k := i - c.lba * blockSize
    some (if c.write then memory (address + k) else r.lastData.data k)
  else moved i

/-- `write_cbw`; the disk has sectors of `blockSize` bytes. -/
def writeCbw (blockSize : Nat) (reply : Reply) (lun : Nat) (deviceToHost : Bool) (cbwcb : Bytes)
    (cbwcbSize address size : Nat) (h : Host) : Option MscError × Host :=
  let h := { h with calls := h.calls + 1 }
  let h := if deviceToHost ∧ 0 < size then { h with memory := h.memory.fill address 0 size } else h
  if cbwcbSize < 1 ∨ 16 < cbwcbSize then (some .argument, h)
  else if ¬ reply.present then (some .mediaChanged, h)
  else
    let command := decode (commandWrapper deviceToHost lun cbwcb cbwcbSize size)
    let h := { h with commands := h.commands ++ command.toList }
    match reply.cbw.error with
    | some e => (some (.endpoint e), h)
    | none =>
      if reply.cbw.actual ≠ 31 then (some .unexpected, h)
      else
        let h := { h with memory := reply.dataStage deviceToHost address size h.memory }
        match reply.lastData.error with
        | some e => (some (.endpoint e), h)
        | none =>
          match reply.cswStage with
          | some e => (some e, h)
          | none =>
            (none, { h with
              moved := command.elim h.moved fun c =>
                register blockSize reply address size h.memory c h.moved })

/-- `scsi_read` and `scsi_write` -/
def scsiReadWrite (blockSize : Nat) (reply : Reply) (lun : Nat) (write : Bool)
    (lba count address size : Nat) (h : Host) : Option MscError × Host :=
  writeCbw blockSize reply lun (!write) (scsiBlock write (lba % 2 ^ 32) (count % 2 ^ 32)) 10 address size h

structure Report where
  error : Option MscError
  size : Nat
  host : Host

/-- The unit that starts at `lba`, clipped at the end of the disk. -/
def clipUnit (blockSize sectorCount lba unitSize : Nat) : Option Nat :=
  if sectorCount < lba + unitSize / blockSize then
    if sectorCount ≤ lba then none else some (blockSize * (sectorCount - lba))
  else some unitSize

/-- `while (transfer_size < requested_size)` -/
def transferLoop (cap : Capacity) (replies : Nat → Reply) (lun : Nat) (write : Bool)
    (address requested : Nat) : Nat → Nat → Nat → Host → Report
  | 0, _, done, h => ⟨none, done, h⟩
  | fuel + 1, lba, done, h =>
    if done < requested then
      match clipUnit cap.val (cap.diskSize / cap.val) lba (min 0x1000 (requested - done)) with
      | none => ⟨none, done, h⟩
      | some unitSize =>
        match scsiReadWrite cap.val (replies h.calls) lun write lba (unitSize / cap.val)
          (address + done) unitSize h with
        | (some e, h) => ⟨some e, done, h⟩
        | (none, h) =>
          transferLoop cap replies lun write address requested fuel (lba + unitSize / cap.val)
            (done + unitSize) h
    else ⟨none, done, h⟩

def readWriteLocked (cap : Capacity) (replies : Nat → Reply) (lun offset size address : Nat)
    (write : Bool) (memory : Bytes) : Report :=
  let h : Host := ⟨memory, fun _ => none, [], 0⟩
  if offset % 2 ^ 32 &&& (cap.val - 1) ≠ 0 then ⟨some .alignment, 0, h⟩
  else if size % 2 ^ 32 &&& (cap.val - 1) ≠ 0 then ⟨some .alignment, 0, h⟩
  else transferLoop cap replies lun write address size size (offset / cap.val) 0 h

/-- The reported bytes are those that the device moved for the sectors from `offset` on. -/
structure Truthful (cap : Capacity) (offset address : Nat) (t : Report) : Prop where
  whole : t.size % cap.val = 0
  sectors : ∀ c ∈ t.host.commands, c.lba + c.count ≤ cap.diskSize / cap.val
  moved : ∀ i, t.host.moved i =
    if offset ≤ i ∧ i < offset + t.size then some (t.host.memory (address + (i - offset))) else none

/-- A command that the driver takes for complete. -/
structure Reply.Completes (r : Reply) : Prop where
  present : r.present = true
  cbw : r.cbw.error = none ∧ r.cbw.actual = 31
  data : r.lastData.error = none
  csw : r.cswStage = none

def reach (cap : Capacity) (offset size : Nat) : Nat := min size (cap.diskSize - offset)

/-- Every unit of the request, up to the first that fails, moved all its bytes in the last
attempt of its data stage, and has no residue in its status wrapper. -/
def MovesAll (cap : Capacity) (offset size : Nat) (replies : Nat → Reply) : Prop :=
  offset % cap.val = 0 → size % cap.val = 0 → ∀ k, k * 0x1000 < reach cap offset size →
    (∀ j, j ≤ k → (replies j).Completes) →
      min 0x1000 (reach cap offset size - k * 0x1000) ≤ (replies k).lastData.actual ∧
        (replies k).residue = 0

variable {cap : Capacity} {reply : Reply} {lun lba count address size blockSize : Nat} {write : Bool}
variable {h h' : Host} {r : Option MscError}

theorem Capacity.val_eq (cap : Capacity) :
    cap.val = 2 ^ 9 ∨ cap.val = 2 ^ 10 ∨ cap.val = 2 ^ 11 ∨ cap.val = 2 ^ 12 := by
  have h : ∀ a < 65, ∀ b < 64,
      0x200 ≤ 64 * a + b ∧ 64 * a + b ≤ 0x1000 ∧ (64 * a + b) &&& (64 * a + b - 1) = 0 →
        64 * a + b = 2 ^ 9 ∨ 64 * a + b = 2 ^ 10 ∨ 64 * a + b = 2 ^ 11 ∨ 64 * a + b = 2 ^ 12 := by
    decide +kernel
  have hv := h (cap.val / 64) (by have := cap.aligned; omega) (cap.val % 64) (Nat.mod_lt _ (by decide))
  rw [Nat.div_add_mod] at hv
  exact hv cap.aligned

theorem Capacity.mask (cap : Capacity) (n : Nat) : n % 2 ^ 32 &&& (cap.val - 1) = n % cap.val := by
  rcases cap.val_eq with h | h | h | h <;> rw [h, Nat.and_two_pow_sub_one_eq_mod] <;> omega

theorem Capacity.sectors (cap : Capacity) : cap.diskSize / cap.val = 1 + cap.lba :=
  Nat.mul_div_cancel _ (by have := cap.aligned; omega)

theorem decode_eq (hl : lba < 2 ^ 32) (hc : count < 2 ^ 16) (hs : size < 2 ^ 32) :
    decode (commandWrapper (!write) lun (scsiBlock write lba count) 10 size) =
      some ⟨write, lba, count, size⟩ := by
  generalize hw : commandWrapper (!write) lun (scsiBlock write lba count) 10 size = cbw
  have hop : cbw 0x0F = UInt8.ofNat (if write then 0x2A else 0x28) := by rw [← hw]; rfl
  have hflags : cbw 0x0C = UInt8.ofNat (if !write then 0x80 else 0x00) := by rw [← hw]; rfl
  have hlen : cbw 0x0E = UInt8.ofNat 10 := by rw [← hw]; rfl
  have hsig : cbw.dword 0 = 0x43425355 := by
    have h0 : cbw 0 = 0x55 ∧ cbw 1 = 0x53 ∧ cbw 2 = 0x42 ∧ cbw 3 = 0x43 := by
      rw [← hw]
      exact ⟨rfl, rfl, rfl, rfl⟩
    unfold Bytes.dword Bytes.word
    rw [h0.1, h0.2.1, h0.2.2.1, h0.2.2.2]
    rfl
  have hsize : cbw.dword 8 = size := by
    have h8 : cbw 8 = UInt8.ofNat size := by rw [← hw]; rfl
    have h9 : cbw 9 = UInt8.ofNat (size / 256) := by rw [← hw]; rfl
    have h10 : cbw 10 = UInt8.ofNat (size / 65536) := by rw [← hw]; rfl
    have h11 : cbw 11 = UInt8.ofNat (size / 65536 / 256) := by rw [← hw]; rfl
    unfold Bytes.dword Bytes.word
    rw [h8, h9, h10, h11]
    simp only [UInt8.toNat_ofNat']
    omega
  have hlba : be32 cbw 0x11 = lba := by
    have h11 : cbw 0x11 = UInt8.ofNat (lba / 2 ^ 24) := by rw [← hw]; rfl
    have h12 : cbw 0x12 = UInt8.ofNat (lba / 2 ^ 16) := by rw [← hw]; rfl
    have h13 : cbw 0x13 = UInt8.ofNat (lba / 2 ^ 8) := by rw [← hw]; rfl
    have h14 : cbw 0x14 = UInt8.ofNat lba := by rw [← hw]; rfl
    unfold be32
    rw [h11, h12, h13, h14]
    simp only [UInt8.toNat_ofNat']
    omega
  have hcount : 2 ^ 8 * (cbw 0x16).toNat + (cbw 0x17).toNat = count := by
    have h16 : cbw 0x16 = UInt8.ofNat (count / 2 ^ 8) := by rw [← hw]; rfl
    have h17 : cbw 0x17 = UInt8.ofNat count := by rw [← hw]; rfl
    rw [h16, h17]
    simp only [UInt8.toNat_ofNat']
    omega
  unfold decode
  rw [hsig, hlen, hop, hflags, hlba, hcount, hsize]
  cases write <;> rfl

structure Commanded (blockSize : Nat) (reply : Reply) (write : Bool) (lba count address size : Nat)
    (h : Host) (r : Option MscError) (h' : Host) : Prop where
  completes : r = none ↔ reply.Completes
  calls : h'.calls = h.calls + 1
  commands : ∀ c ∈ h'.commands, c ∈ h.commands ∨ c = ⟨write, lba, count, size⟩
  memory : ∀ i, i < address ∨ address + size ≤ i → h'.memory i = h.memory i
  kept : write = true → h'.memory = h.memory
  moved : r = none → ∀ i, h'.moved i =
    if lba * blockSize ≤ i ∧ i < lba * blockSize + reply.processed size then
      some (h'.memory (address + (i - lba * blockSize)))
    else h.moved i
  still : r ≠ none → h'.moved = h.moved

variable {m : Bytes} {i : Nat}

theorem store_outside {e : EndpointReply} {b : Bool} (hi : i < address ∨ address + size ≤ i) :
    e.store b address size m i = m i := by
  unfold EndpointReply.store
  split
  · exact Bytes.copy_outside (by omega)
  · rfl

theorem dataStage_outside {b : Bool} (hi : i < address ∨ address + size ≤ i) :
    reply.dataStage b address size m i = m i := by
  unfold Reply.dataStage
  split
  · exact store_outside hi
  · rw [store_outside hi, store_outside hi]

theorem dataStage_write : reply.dataStage false address size m = m := by
  unfold Reply.dataStage EndpointReply.store
  simp

theorem dataStage_read {k : Nat} (hk : k < min reply.lastData.actual size) :
    reply.dataStage true address size m (address + k) = reply.lastData.data k := by
  unfold Reply.lastData at hk ⊢
  unfold Reply.dataStage EndpointReply.store
  split
  · rename_i hd
    rw [if_pos hd] at hk
    rw [if_pos rfl, Bytes.copy_inside (by omega) (by omega)]
    simp
  · rename_i hd
    rw [if_neg hd] at hk
    rw [if_pos rfl, Bytes.copy_inside (by omega) (by omega)]
    exact congrArg _ (by omega)

theorem scsiReadWrite_commanded (hl : lba < 2 ^ 32) (hc : count < 2 ^ 16) (hs : size < 2 ^ 32)
    (he : scsiReadWrite blockSize reply lun write lba count address size h = (r, h')) :
    Commanded blockSize reply write lba count address size h r h' := by
  unfold scsiReadWrite writeCbw at he
  rw [Nat.mod_eq_of_lt hl, Nat.mod_eq_of_lt (by omega : count < 2 ^ 32), if_neg (by decide),
    decode_eq hl hc hs] at he
  -- the host once its memory is cleared
  generalize hh : (if (!write) = true ∧ 0 < size then _ else _ : Host) = h0 at he
  have h0same : h0.calls = h.calls + 1 ∧ h0.commands = h.commands ∧ h0.moved = h.moved ∧
      (write = true → h0.memory = h.memory) ∧
      ∀ i, i < address ∨ address + size ≤ i → h0.memory i = h.memory i := by
    rw [← hh]
    split
    · rename_i hw
      refine ⟨rfl, rfl, rfl, fun hw' => ?_, fun i hi => Bytes.fill_outside hi⟩
      rw [hw'] at hw
      exact absurd hw.1 (by decide)
    · simp
  obtain ⟨hcalls, hcommands, hmoved, hkept, hout⟩ := h0same
  have hissued : ∀ c ∈ h0.commands ++ (some (⟨write, lba, count, size⟩ : Block.Command)).toList,
      c ∈ h.commands ∨ c = ⟨write, lba, count, size⟩ := by
    intro c hmem
    rw [hcommands] at hmem
    simpa using hmem
  have hold : ∀ c ∈ h0.commands, c ∈ h.commands ∨ c = ⟨write, lba, count, size⟩ := by
    intro c hmem
    rw [hcommands] at hmem
    exact Or.inl hmem
  -- memory after the data stage
  have hstage : ∀ i, i < address ∨ address + size ≤ i →
      reply.dataStage (!write) address size h0.memory i = h.memory i := fun i hi =>
    (dataStage_outside hi).trans (hout i hi)
  have hstageKept : write = true → reply.dataStage (!write) address size h0.memory = h.memory := by
    intro hw
    rw [hw, Bool.not_true, dataStage_write, hkept hw]
  by_cases hp : reply.present = true
  case neg =>
    rw [if_pos hp] at he
    cases he
    exact ⟨⟨fun hr => (by cases hr), fun hr => absurd hr.present hp⟩, hcalls, hold, hout, hkept,
      fun hr => (by cases hr), fun _ => hmoved⟩
  rw [if_neg (not_not_intro hp)] at he
  cases hcbw : reply.cbw.error with
  | some e =>
    rw [hcbw] at he
    cases he
    refine ⟨⟨fun hr => (by cases hr), fun hr => ?_⟩, hcalls, hissued, hout, hkept,
      fun hr => (by cases hr), fun _ => hmoved⟩
    rw [hr.cbw.1] at hcbw
    cases hcbw
  | none =>
    rw [hcbw] at he
    dsimp only at he
    by_cases hactual : reply.cbw.actual = 31
    case neg =>
      rw [if_pos hactual] at he
      cases he
      exact ⟨⟨fun hr => (by cases hr), fun hr => absurd hr.cbw.2 hactual⟩, hcalls, hissued, hout,
        hkept, fun hr => (by cases hr), fun _ => hmoved⟩
    rw [if_neg (not_not_intro hactual)] at he
    cases hdata : reply.lastData.error with
    | some e =>
      rw [hdata] at he
      cases he
      refine ⟨⟨fun hr => (by cases hr), fun hr => ?_⟩, hcalls, hissued, hstage, hstageKept,
        fun hr => (by cases hr), fun _ => hmoved⟩
      rw [hr.data] at hdata
      cases hdata
    | none =>
      rw [hdata] at he
      cases hcsw : reply.cswStage with
      | some e =>
        rw [hcsw] at he
        cases he
        refine ⟨⟨fun hr => (by cases hr), fun hr => ?_⟩, hcalls, hissued, hstage, hstageKept,
          fun hr => (by cases hr), fun _ => hmoved⟩
        rw [hr.csw] at hcsw
        cases hcsw
      | none =>
        rw [hcsw] at he
        cases he
        refine ⟨⟨fun _ => ⟨hp, ⟨hcbw, hactual⟩, hdata, hcsw⟩, fun _ => rfl⟩, hcalls, hissued,
          hstage, hstageKept, fun _ i => ?_, fun hr => absurd rfl hr⟩
        dsimp only [Option.elim_some, register]
        split
        · next hin =>
          congr 1
          cases write with
          | true => rw [if_pos rfl]
          | false =>
            refine (dataStage_read ?_).symm
            unfold Reply.processed at hin
            omega
        · exact congrFun hmoved i

/-! ## Units -/

variable {replies : Nat → Reply} {offset requested done unitSize k sc : Nat} {memory : Bytes}

theorem clipUnit_eq {bs disk u : Nat} (hdisk : disk = sc * bs) (hlba : lba * bs = offset + done)
    (hu : u = min 0x1000 (requested - done)) (hq : u = u / bs * bs)
    (hlt : done < requested) :
    (clipUnit bs sc lba u = none → min requested (disk - offset) ≤ done) ∧
      (clipUnit bs sc lba u = some unitSize →
        unitSize = min 0x1000 (min requested (disk - offset) - done) ∧
          done < min requested (disk - offset) ∧ lba + unitSize / bs ≤ sc) := by
  unfold clipUnit
  by_cases hpast : sc < lba + u / bs
  · rw [if_pos hpast]
    have hle : sc * bs ≤ (lba + u / bs) * bs := Nat.mul_le_mul_right _ (le_of_lt hpast)
    rw [add_mul, ← hq] at hle
    by_cases hend : sc ≤ lba
    · rw [if_pos hend]
      have hmul : sc * bs ≤ lba * bs := Nat.mul_le_mul_right _ hend
      exact ⟨fun _ => by omega, fun h => by cases h⟩
    rw [if_neg hend]
    have hrest : bs * (sc - lba) = disk - (offset + done) := by
      rw [Nat.mul_sub, Nat.mul_comm bs, Nat.mul_comm bs, hlba, hdisk]
    refine ⟨fun h => (by cases h), fun h => ?_⟩
    cases h
    have hpos : 0 < bs := by
      rcases Nat.eq_zero_or_pos bs with hz | hz
      · rw [hz, mul_zero] at hq
        omega
      · exact hz
    have hsome : 0 < bs * (sc - lba) := mul_pos hpos (by omega)
    rw [Nat.mul_div_cancel_left _ hpos]
    omega
  · rw [if_neg hpast]
    have hle : (lba + u / bs) * bs ≤ sc * bs := Nat.mul_le_mul_right _ (not_lt.mp hpast)
    rw [add_mul, ← hq] at hle
    refine ⟨fun h => (by cases h), fun h => ?_⟩
    cases h
    omega

/-- What the `k`-th unit of a transfer of `total` bytes moved. -/
def unitMoved (replies : Nat → Reply) (total k : Nat) : Nat :=
  (replies k).processed (min 0x1000 (total - k * 0x1000))

/-- The byte of the disk was moved by its unit. -/
def Covered (replies : Nat → Reply) (total offset done i : Nat) : Prop :=
  offset ≤ i ∧ i < offset + done ∧
    (i - offset) % 0x1000 < unitMoved replies total ((i - offset) / 0x1000)

instance (replies : Nat → Reply) (total offset done i : Nat) :
    Decidable (Covered replies total offset done i) :=
  inferInstanceAs (Decidable (_ ∧ _ ∧ _))

/-- What is moved after `done` bytes of units that all completed. -/
structure Standing (cap : Capacity) (replies : Nat → Reply) (total offset address done : Nat)
    (h : Host) : Prop where
  commands : ∀ c ∈ h.commands, c.lba + c.count ≤ 1 + cap.lba
  moved : ∀ i, h.moved i =
    if Covered replies total offset done i then some (h.memory (address + (i - offset))) else none

variable {total : Nat}

theorem covered_unit (replies : Nat → Reply) (total : Nat) (hu : unitSize ≤ 0x1000) (hi : offset + k * 0x1000 ≤ i)
    (hi' : i < offset + k * 0x1000 + unitSize) :
    Covered replies total offset (k * 0x1000 + unitSize) i ↔
      i - (offset + k * 0x1000) < unitMoved replies total k := by
  have hdiv : (i - offset) / 0x1000 = k := by omega
  have hmod : (i - offset) % 0x1000 = i - (offset + k * 0x1000) := by omega
  unfold Covered
  rw [hdiv, hmod]
  omega

theorem Standing.completed (hs : Standing cap replies total offset address (k * 0x1000) h)
    (hu : unitSize = min 0x1000 (total - k * 0x1000)) (hlba : lba * cap.val = offset + k * 0x1000)
    (hend : lba + count ≤ 1 + cap.lba)
    (hc : Commanded cap.val (replies k) write lba count (address + k * 0x1000) unitSize h none h') :
    Standing cap replies total offset address (k * 0x1000 + unitSize) h' := by
  have hle : unitSize ≤ 0x1000 := by omega
  have hunit : unitMoved replies total k = (replies k).processed unitSize := by
    rw [unitMoved, ← hu]
  have hfull : (replies k).processed unitSize ≤ unitSize := by
    unfold Reply.processed
    omega
  refine ⟨fun c hmem => ?_, fun i => ?_⟩
  · rcases hc.commands c hmem with hold | rfl
    · exact hs.commands c hold
    · exact hend
  rw [hc.moved rfl, hlba]
  by_cases hin : offset + k * 0x1000 ≤ i
  · have hold : ¬ Covered replies total offset (k * 0x1000) i := fun hc => by
      have := hc.2.1
      omega
    rw [hs.moved, if_neg hold]
    by_cases hlt : i < offset + k * 0x1000 + unitSize
    · have haddr : address + k * 0x1000 + (i - (offset + k * 0x1000)) = address + (i - offset) := by
        omega
      have hcov := covered_unit replies total hle hin hlt
      rw [hunit] at hcov
      by_cases hact : i - (offset + k * 0x1000) < (replies k).processed unitSize
      · rw [if_pos (by omega), if_pos (hcov.mpr hact), haddr]
      · rw [if_neg (by omega), if_neg fun h => hact (hcov.mp h)]
    · have hnew : ¬ Covered replies total offset (k * 0x1000 + unitSize) i := fun hc => by
        have := hc.2.1
        omega
      rw [if_neg (by omega), if_neg hnew]
  · rw [if_neg (by omega), hs.moved]
    by_cases hcov : Covered replies total offset (k * 0x1000) i
    · have hlt : i < offset + (k * 0x1000 + unitSize) := by omega
      have hcov' : Covered replies total offset (k * 0x1000 + unitSize) i := ⟨hcov.1, hlt, hcov.2.2⟩
      have hlow : address + (i - offset) < address + k * 0x1000 := by
        have := hcov.1
        omega
      rw [if_pos hcov, if_pos hcov', hc.memory _ (Or.inl hlow)]
    · have hlt : i < offset + k * 0x1000 := by omega
      have hcov' : ¬ Covered replies total offset (k * 0x1000 + unitSize) i := fun h =>
        hcov ⟨h.1, hlt, h.2.2⟩
      rw [if_neg hcov, if_neg hcov']

theorem Standing.failed {e : MscError} (hs : Standing cap replies total offset address (k * 0x1000) h)
    (hend : lba + count ≤ 1 + cap.lba)
    (hc : Commanded cap.val (replies k) write lba count (address + k * 0x1000) unitSize h (some e) h') :
    Standing cap replies total offset address (k * 0x1000) h' := by
  refine ⟨fun c hmem => ?_, fun i => ?_⟩
  · rcases hc.commands c hmem with hold | rfl
    · exact hs.commands c hold
    · exact hend
  rw [hc.still (by simp), hs.moved]
  by_cases hcov : Covered replies total offset (k * 0x1000) i
  · rw [if_pos hcov, if_pos hcov,
      hc.memory _ (Or.inl (by have := hcov.1; have := hcov.2.1; omega))]
  · rw [if_neg hcov, if_neg hcov]

/-- How a call ends: the units up to the first that fails are counted. -/
structure Ended (cap : Capacity) (replies : Nat → Reply) (offset address total : Nat) (t : Report) :
    Prop where
  standing : Standing cap replies total offset address t.size t.host
  counted : ∀ i, i * 0x1000 < t.size ↔ i * 0x1000 < total ∧ ∀ j, j ≤ i → (replies j).Completes
  le : t.size ≤ total
  edge : t.size = total ∨ t.size % 0x1000 = 0

theorem Capacity.dvd_unit (cap : Capacity) : cap.val ∣ 0x1000 := by
  rcases cap.val_eq with h | h | h | h <;> rw [h] <;> decide

theorem reach_dvd (ho : offset % cap.val = 0) (hr : requested % cap.val = 0) :
    cap.val ∣ reach cap offset requested := by
  unfold reach
  rcases le_total requested (cap.diskSize - offset) with h | h
  · rw [min_eq_left h]
    omega
  · rw [min_eq_right h]
    exact Nat.dvd_sub (Nat.dvd_mul_left _ _) (Nat.dvd_of_mod_eq_zero ho)

theorem Ended.all (hs : Standing cap replies total offset address done h) {e : Option MscError}
    (hdone : done = total) (hk : total ≤ k * 0x1000) (hc : ∀ j, j < k → (replies j).Completes) :
    Ended cap replies offset address total ⟨e, done, h⟩ where
  standing := hs
  counted i := by
    dsimp only
    rw [hdone]
    exact ⟨fun hi => ⟨hi, fun j hj => hc j (by omega)⟩, fun hi => hi.1⟩
  le := le_of_eq hdone
  edge := Or.inl hdone

theorem transferLoop_ended (ho : offset % cap.val = 0) (hr : requested % cap.val = 0) :
    ∀ (fuel k lba done : Nat) (h : Host), requested - done ≤ fuel →
      done = min (k * 0x1000) (reach cap offset requested) → lba * cap.val = offset + done →
      h.calls = k → (∀ j, j < k → (replies j).Completes) →
      Standing cap replies (reach cap offset requested) offset address done h →
      Ended cap replies offset address (reach cap offset requested)
        (transferLoop cap replies lun write address requested fuel lba done h) := by
  intro fuel
  induction fuel with
  | zero =>
    intro k lba done h hfuel hdone hlba hcalls hc hs
    have hle : reach cap offset requested ≤ requested := min_le_left _ _
    exact Ended.all hs (by omega) (by omega) hc
  | succ fuel ih =>
    intro k lba done h hfuel hdone hlba hcalls hc hs
    have hle : reach cap offset requested ≤ requested := min_le_left _ _
    rw [transferLoop]
    split
    · rename_i hlt
      have hdvd := @reach_dvd cap offset requested ho hr
      have hdvdDone : cap.val ∣ done := by
        rw [hdone]
        rcases le_total (k * 0x1000) (reach cap offset requested) with hm | hm
        · rw [min_eq_left hm]
          exact dvd_trans cap.dvd_unit (Nat.dvd_mul_left _ _)
        · rwa [min_eq_right hm]
      have hmin (n : Nat) (hn : cap.val ∣ n) : cap.val ∣ min 0x1000 (n - done) := by
        rcases le_total 0x1000 (n - done) with hm | hm
        · rw [min_eq_left hm]
          exact cap.dvd_unit
        · rw [min_eq_right hm]
          exact Nat.dvd_sub hn hdvdDone
      have hu := (Nat.div_mul_cancel (hmin requested (Nat.dvd_of_mod_eq_zero hr))).symm
      cases hclip : clipUnit cap.val (cap.diskSize / cap.val) lba (min 0x1000 (requested - done)) with
      | none =>
        rw [cap.sectors] at hclip
        have hpast := (@clipUnit_eq lba offset requested done 0 _ _ _ _ rfl hlba rfl hu hlt).1 hclip
        change reach cap offset requested ≤ done at hpast
        exact Ended.all hs (by omega) (by omega) hc
      | some unitSize =>
        rw [cap.sectors] at hclip
        obtain ⟨hunit, hin, hend⟩ := (clipUnit_eq rfl hlba rfl hu hlt).2 hclip
        change unitSize = min 0x1000 (reach cap offset requested - done) at hunit
        change done < reach cap offset requested at hin
        have hdone' : done = k * 0x1000 := by omega
        have hbytes : unitSize / cap.val * cap.val = unitSize := by
          rw [hunit]
          exact Nat.div_mul_cancel (hmin _ hdvd)
        have hcount : unitSize / cap.val ≤ unitSize := Nat.div_le_self _ _
        have hsmall := cap.small
        have hlast : lba ≤ 1 + cap.lba := Nat.le_trans (Nat.le_add_right _ _) hend
        dsimp only
        generalize he : scsiReadWrite cap.val (replies h.calls) lun write lba (unitSize / cap.val)
          (address + done) unitSize h = result
        obtain ⟨r, h'⟩ := result
        have hcmd := scsiReadWrite_commanded (by omega) (by omega) (by omega) he
        rw [hcalls] at hcmd
        rw [hdone'] at hs hcmd hlba
        cases r with
        | some e =>
          refine ⟨?_, fun i => ?_, le_of_lt hin, Or.inr (by dsimp only; omega)⟩
          · rw [hdone']
            exact hs.failed hend hcmd
          dsimp only
          refine ⟨fun hi => ⟨by omega, fun j hj => hc j (by omega)⟩, fun hi => ?_⟩
          by_contra hge
          have hk := hcmd.completes.mpr (hi.2 k (by omega))
          cases hk
        | none =>
          have hall (j : Nat) (hj : j < k + 1) : (replies j).Completes := by
            rcases Nat.lt_succ_iff_lt_or_eq.mp hj with hj | rfl
            · exact hc j hj
            · exact hcmd.completes.mp rfl
          have hnext : (lba + unitSize / cap.val) * cap.val = offset + (done + unitSize) := by
            rw [add_mul, hbytes, hlba, hdone', add_assoc]
          refine ih (k + 1) (lba + unitSize / cap.val) (done + unitSize) h' (by omega) (by omega)
            hnext (by rw [hcmd.calls, hcalls]) hall ?_
          rw [hdone'] at hunit ⊢
          exact hs.completed hunit hlba hend hcmd
    · exact Ended.all hs (by omega) (by omega) hc

theorem Ended.moved_iff {t : Report} (he : Ended cap replies offset address total t) :
    (∀ i, t.host.moved i =
        if offset ≤ i ∧ i < offset + t.size then some (t.host.memory (address + (i - offset))) else none) ↔
      ∀ k, k * 0x1000 < total → (∀ j, j ≤ k → (replies j).Completes) →
        min 0x1000 (total - k * 0x1000) ≤ (replies k).lastData.actual ∧
          (replies k).residue = 0 := by
  have hle := he.le
  have hedge := he.edge
  have hall : ∀ k, k * 0x1000 < total → ((min 0x1000 (total - k * 0x1000) ≤
      (replies k).lastData.actual ∧ (replies k).residue = 0) ↔
        min 0x1000 (total - k * 0x1000) ≤ unitMoved replies total k) := by
    intro k hk
    unfold unitMoved Reply.processed
    omega
  constructor
  · intro h k hk hc
    have hin := (he.counted k).mpr ⟨hk, hc⟩
    rw [hall k hk]
    by_contra hshort
    have hlt : unitMoved replies total k < 0x1000 := by omega
    -- the first byte that the data stage of this unit did not reach
    have hcov : ¬ Covered replies total offset t.size
        (offset + k * 0x1000 + unitMoved replies total k) := by
      intro hcov
      have hplace : offset + k * 0x1000 + unitMoved replies total k - offset =
          k * 0x1000 + unitMoved replies total k := by omega
      have hthere := hcov.2.2
      rw [hplace, mul_comm, Nat.mul_add_mod, Nat.mod_eq_of_lt hlt, Nat.mul_add_div (by decide),
        Nat.div_eq_of_lt hlt, add_zero] at hthere
      omega
    have hi := h (offset + k * 0x1000 + unitMoved replies total k)
    rw [he.standing.moved, if_neg hcov, if_pos (by omega)] at hi
    cases hi
  · intro h i
    rw [he.standing.moved]
    by_cases hi : offset ≤ i ∧ i < offset + t.size
    · have hin : (i - offset) / 0x1000 * 0x1000 < t.size := by omega
      obtain ⟨hk, hc⟩ := (he.counted _).mp hin
      have hmoved := (hall _ hk).mp (h _ hk hc)
      have hcov : Covered replies total offset t.size i := ⟨hi.1, hi.2, by omega⟩
      rw [if_pos hcov, if_pos hi]
    · rw [if_neg hi, if_neg fun hcov => hi ⟨hcov.1, hcov.2.1⟩]

/-- A call reports the truth if and only if no unit that it counts had a short data stage,
or a status wrapper with a residue. -/
theorem readWriteLocked_truthful_iff (cap : Capacity) (replies : Nat → Reply)
    (lun offset size address : Nat) (write : Bool) (memory : Bytes) :
    Truthful cap offset address (readWriteLocked cap replies lun offset size address write memory) ↔
      MovesAll cap offset size replies := by
  unfold readWriteLocked MovesAll
  dsimp only
  rw [cap.mask, cap.mask]
  have hrefused {e : MscError} : Truthful cap offset address ⟨some e, 0, ⟨memory, fun _ => none, [], 0⟩⟩ :=
    ⟨rfl, fun c hc => (by cases hc), fun i => by rw [if_neg (by dsimp only; omega)]⟩
  by_cases ho : offset % cap.val = 0
  case neg =>
    rw [if_pos ho]
    exact ⟨fun _ h => absurd h ho, fun _ => hrefused⟩
  by_cases hr : size % cap.val = 0
  case neg =>
    rw [if_neg (not_not_intro ho), if_pos hr]
    exact ⟨fun _ _ h => absurd h hr, fun _ => hrefused⟩
  rw [if_neg (not_not_intro ho), if_neg (not_not_intro hr)]
  have hstart : Standing cap replies (reach cap offset size) offset address 0 ⟨memory, fun _ => none, [], 0⟩ :=
    ⟨fun c hc => (by cases hc), fun i => by rw [if_neg fun h => by have := h.1; have := h.2.1; omega]⟩
  have he := @transferLoop_ended cap lun address write replies offset size ho hr size 0
    (offset / cap.val) 0 ⟨memory, fun _ => none, [], 0⟩ (by omega) (by omega)
    (Nat.div_mul_cancel (Nat.dvd_of_mod_eq_zero ho)) rfl (fun j hj => absurd hj (Nat.not_lt_zero j)) hstart
  generalize transferLoop cap replies lun write address size size (offset / cap.val) 0
    ⟨memory, fun _ => none, [], 0⟩ = t at he ⊢
  constructor
  · exact fun h _ _ => he.moved_iff.mp h.moved
  refine fun h => ⟨?_, fun c hc => ?_, he.moved_iff.mpr (h ho hr)⟩
  · rcases he.edge with hall | hedge
    · rw [hall]
      exact Nat.mod_eq_zero_of_dvd (reach_dvd ho hr)
    · exact Nat.mod_eq_zero_of_dvd (dvd_trans cap.dvd_unit (Nat.dvd_of_mod_eq_zero hedge))
  · rw [cap.sectors]
    exact he.standing.commands c hc

/-- A device that completes a command of 512 bytes: `actual` bytes arrive, and the status
wrapper has this residue. -/
def shortReply (actual residue : Nat) : Reply :=
  let ok (n : Nat) : EndpointReply := ⟨none, n, fun _ => 0⟩
  let csw : EndpointReply := ⟨none, 13,
    Bytes.setDword (fun i => [0x55, 0x53, 0x42, 0x53].getD i 0) 8 residue⟩
  { present := true, cbw := ok 31, data := ok actual, dataAgain := ok 0, csw, cswAgain := csw }

/-- A read of one sector. -/
def readOne (reply : Reply) : Report :=
  readWriteLocked ⟨99, 512, by decide, by decide⟩ (fun _ => reply) 0 0 512 0 false fun _ => 0

/-- The report says 512 bytes: none was delivered, or all of them without being counted. -/
theorem readWriteLocked_short :
    ¬ Truthful ⟨99, 512, by decide, by decide⟩ 0 0 (readOne (shortReply 0 0)) ∧
      ¬ Truthful ⟨99, 512, by decide, by decide⟩ 0 0 (readOne (shortReply 512 512)) := by
  constructor
  · intro h
    have hmoved := h.moved 0
    revert hmoved
    decide
  · intro h
    have hmoved := h.moved 0
    revert hmoved
    decide

end Dancy.Usb.BulkOnly
