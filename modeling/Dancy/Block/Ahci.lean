import Dancy.Block.Floppy
import Dancy.Block.Ide
import Mathlib.Data.Nat.Bitwise

/-!
# AHCI transfers (`pci/ahci.c`)

A command is a frame of bytes, a header word and the last word of the region
table; the device reads sectors, direction and size out of them. What the slot
held before, and which slots are free, come with the reply.
-/

namespace Dancy.Block.Ahci

open Lib

inductive Ending where
  | finished
  | taskFileError
  | timeout
deriving DecidableEq

/-- What the port answers to one command. `before` is the direction of the last command
of the slot. -/
structure Reply where
  (cap ds ci : Nat)
  before : Option Bool
  region : Nat
  busy : Bool
  ending : Ending
  moved : Nat
  left : Bytes

def ahciGetSlot (r : Reply) : Option Nat :=
  (List.range (r.cap / 2 ^ 8 % 32 + 1)).find? fun i => !r.ds.testBit i && !r.ci.testBit i

/-! ## The command -/

/-- `cfis` -/
def commandFis (write : Bool) (lba count : Nat) : Bytes :=
  let cfis : Bytes := fun _ => 0
  let cfis := cfis.setByte 0 0x27
  let cfis := cfis.setByte 1 0x80
  let cfis := cfis.setByte 2 (if write then 0x35 else 0x25)
  let cfis := cfis.setByte 4 lba
  let cfis := cfis.setByte 5 (lba / 2 ^ 8)
  let cfis := cfis.setByte 6 (lba / 2 ^ 16)
  let cfis := cfis.setByte 7 0x40
  let cfis := cfis.setByte 8 (lba / 2 ^ 24)
  let cfis := cfis.setByte 9 (lba / 2 ^ 32)
  let cfis := cfis.setByte 10 (lba / 2 ^ 40)
  let cfis := cfis.setByte 12 count
  cfis.setByte 13 (count / 2 ^ 8)

/-- `ch[0]`, from what it was -/
def commandHeader (write : Bool) (old : Nat) : Nat :=
  (old &&& 0xFFFFFFB0) ||| 5 ||| ((if write then 1 else 0) <<< 6)

/-- `ch[0]` as a slot has it: from the start, or from its last command. -/
def slotHeader : Option Bool → Nat
  | none => 1 <<< 16
  | some write => commandHeader write (1 <<< 16)

/-- `prdt[3]`, from what it was -/
def commandRegion (count old : Nat) : Nat :=
  (old &&& 0x7FC00000) ||| (count * 512 - 1) ||| (1 <<< 31)

/-- The command as the device reads it: one region, a register FIS of five words with the
command bit, READ DMA EXT or WRITE DMA EXT in LBA mode, and the direction of the header. -/
def decode (cfis : Bytes) (header region : Nat) : Option Command :=
  let write := header.testBit 6
  if cfis 0 = 0x27 ∧ cfis 1 = 0x80 ∧ cfis 7 = 0x40 ∧ header % 32 = 5 ∧ header / 2 ^ 16 = 1 ∧
      cfis 2 = if write then 0x35 else 0x25 then
    let count := cfis.word 12
    some
      { write
        lba := cfis.word 4 + 2 ^ 16 * (cfis 6).toNat + 2 ^ 24 * (cfis.word 8 + 2 ^ 16 * (cfis 10).toNat)
        count := if count = 0 then 65536 else count
        bytes := region % 2 ^ 22 + 1 }
  else none

def ahciReadWrite (replies : Nat → Reply) : Driver := fun write lba count m =>
  let reply := replies m.attempts
  let m := { m with attempts := m.attempts + 1 }
  if 0x0000FFFFFFFFFFFF < lba ∨ count = 0 then (some (blockError write), m)
  else if ahciGetSlot reply = none then (some (blockError write), m)
  else if reply.busy then (some (blockError write), m)
  else
    let command := decode (commandFis write lba count) (commandHeader write (slotHeader reply.before))
      (commandRegion count reply.region)
    let outcome := ⟨decide (reply.ending = .finished), reply.moved, reply.left⟩
    (if reply.ending = .finished then none else some (blockError write),
      command.elim m fun c => m.perform outcome c)

def readWriteLocked (replies : Nat → Reply) (diskSize offset size address : Nat) (write : Bool)
    (m : Machine) : Report :=
  if offset % 512 ≠ 0 ∨ size % 512 ≠ 0 then ⟨some .alignment, 0, m⟩
  else
    transferLoop (ahciReadWrite replies) (diskSize / 512) write address size size (offset / 512) 0 m

theorem commandHeader_eq (write : Bool) (before : Option Bool) :
    let header := commandHeader write (slotHeader before)
    header.testBit 6 = write ∧ header % 32 = 5 ∧ header / 2 ^ 16 = 1 := by
  rcases before with _ | _ | _ <;> cases write <;> decide

theorem commandRegion_eq {count : Nat} (old : Nat) (h0 : 0 < count) (h : count ≤ 127) :
    commandRegion count old % 2 ^ 22 + 1 = count * 512 := by
  unfold commandRegion
  rw [Nat.or_mod_two_pow, Nat.or_mod_two_pow, Nat.and_mod_two_pow]
  have hold : (0x7FC00000 : Nat) % 2 ^ 22 = 0 := by decide
  have hshift : (1 <<< 31 : Nat) % 2 ^ 22 = 0 := by decide
  rw [hold, hshift, Nat.and_zero, Nat.zero_or, Nat.or_zero, Nat.mod_eq_of_lt (by omega)]
  omega

theorem decode_eq {write : Bool} {lba count region : Nat} (before : Option Bool) (hl : lba ≤ 0xFFFFFFFFFFFF)
    (h0 : 0 < count) (h : count ≤ 127) :
    decode (commandFis write lba count) (commandHeader write (slotHeader before))
        (commandRegion count region) =
      some ⟨write, lba, count, count * 512⟩ := by
  obtain ⟨hbit, hlen, hone⟩ := commandHeader_eq write before
  have hlba : (commandFis write lba count).word 4 + 2 ^ 16 * (commandFis write lba count 6).toNat +
      2 ^ 24 * ((commandFis write lba count).word 8 + 2 ^ 16 * (commandFis write lba count 10).toNat) =
        lba := by
    simp [commandFis, Bytes.word, Bytes.setByte]
    omega
  have hcount : (commandFis write lba count).word 12 = count := by
    simp [commandFis, Bytes.word, Bytes.setByte]
    omega
  have hcode : commandFis write lba count 2 = if write then 0x35 else 0x25 := by
    cases write <;> rfl
  unfold decode
  dsimp only
  rw [hbit, if_pos ⟨rfl, rfl, rfl, hlen, hone, hcode⟩, hlba, hcount, if_neg (by omega),
    commandRegion_eq region h0 h]

theorem ahciReadWrite_serves (replies : Nat → Reply) (sectorCount : Nat) :
    Serves (ahciReadWrite replies) (∀ k, (replies k).moved = 0) sectorCount := by
  intro write lba count m h0 hle _
  unfold ahciReadWrite
  by_cases hl : 0x0000FFFFFFFFFFFF < lba ∨ count = 0
  · rw [if_pos hl]
    exact Served.refused _ rfl rfl (fun _ _ _ => rfl) rfl
  rw [if_neg hl]
  split
  · exact Served.refused _ rfl rfl (fun _ _ _ => rfl) rfl
  split
  · exact Served.refused _ rfl rfl (fun _ _ _ => rfl) rfl
  rw [decode_eq _ (by omega) h0 hle]
  have hs := Served.perform ⟨decide ((replies m.attempts).ending = .finished),
    (replies m.attempts).moved, (replies m.attempts).left⟩ write lba count
    { m with attempts := m.attempts + 1 } (blockError write)
    fun hq : ∀ k, (replies k).moved = 0 => hq m.attempts
  simp only [decide_eq_true_eq] at hs
  exact hs.prepared rfl rfl (fun _ _ _ => rfl) rfl hle

theorem readWriteLocked_reported (replies : Nat → Reply) (diskSize offset size address : Nat)
    (write : Bool) (m : Machine) (hm : m.issued = []) :
    Reported write (∀ k, (replies k).moved = 0) (diskSize / 512) offset address size m
      (readWriteLocked replies diskSize offset size address write m) := by
  unfold readWriteLocked
  split
  · exact Reported.refused hm
  · refine transferLoop_reported (ahciReadWrite_serves replies _) (by omega) (by omega) size _ 0 m
      (by omega) (by omega) (Standing.start hm)

end Dancy.Block.Ahci

namespace Dancy.Block

open Lib

/-- For every device size, every geometry and all replies: the bytes that are reported are
whole sectors and went between the memory and their own sectors, a command ends before the
device and the buffer do, and a call that returns 0 came to its end or that of the device. -/
theorem drivers_reported :
    (∀ (replies : Nat → Ahci.Reply) (diskSize offset size address attempts : Nat) (write : Bool)
        (device memory buffer : Bytes),
      Reported write (∀ k, (replies k).moved = 0) (diskSize / 512) offset address size
        (Machine.idle device memory buffer attempts)
        (Ahci.readWriteLocked replies diskSize offset size address write
          (Machine.idle device memory buffer attempts))) ∧
    (∀ (dev : Ide.Device) (replies : Nat → Ide.Reply) (entry : Ide.Entry)
        (offset size address attempts : Nat) (write : Bool) (device memory buffer : Bytes),
      Reported write (∀ k, (replies k).moved = 0) (Ide.getSectorCount dev) offset address size
        (Machine.idle device memory buffer attempts)
        (Ide.readWriteCommon dev replies entry offset size address write
          (Machine.idle device memory buffer attempts))) ∧
    ∀ (replies : Nat → Floppy.Reply) (entry : Floppy.Entry) (dsel : Int) (offset size address : Nat)
        (write : Bool) (f : Floppy.Fdc),
      Floppy.FloppyReported (∀ k, (replies k).moved = 0) write dsel.toNat offset address size f
        (Floppy.floppyTransfer replies entry dsel offset size address write f) := by
  refine ⟨?_, ?_, ?_⟩
  · intro replies diskSize offset size address attempts write device memory buffer
    exact Ahci.readWriteLocked_reported replies diskSize offset size address write _ rfl
  · intro dev replies entry offset size address attempts write device memory buffer
    exact Ide.readWriteCommon_reported dev replies entry offset size address write _ rfl
  · intro replies entry dsel offset size address write f
    exact Floppy.floppyTransfer_reported id entry dsel offset size address write f

end Dancy.Block
