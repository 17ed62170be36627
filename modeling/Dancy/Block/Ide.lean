import Dancy.Block.Units

/-!
# IDE transfers (`pci/ide_ctrl.c`)

A command is written to the registers of the channel, which keep the value
before the last one as well. What the registers held before comes with the
reply.
-/

namespace Dancy.Block.Ide

open Lib Function

/-- The task file: registers 2 to 7, and what 2 to 5 held before their last value. -/
structure TaskFile where
  (now before : Nat → UInt8)

/-- `cpu_out8` -/
def TaskFile.out (t : TaskFile) (register value : Nat) : TaskFile where
  now := update t.now register (UInt8.ofNat value)
  before := update t.before register (t.now register)

/-- What the channel answers to one command: the three calls of `wait_status`, and the
bus master status after the command. -/
structure Reply where
  busy : Nat → Bool
  registers : TaskFile
  (status moved : Nat)
  left : Bytes

/-- The error bit is set, or the interrupt bit is not. -/
def Reply.failed (r : Reply) : Bool := r.status.testBit 1 || !r.status.testBit 2

structure Device where
  identifyData : Bytes
  (nr bufferAddress : Nat)

def getSectorCount (dev : Device) : Nat := identifySectors dev.identifyData

/-! ## The command -/

/-- The registers of a command in 28-bit LBA mode. -/
def outLba28 (dsel lba count : Nat) (write : Bool) (t : TaskFile) : TaskFile :=
  let lba28 := lba % 2 ^ 32
  let t := t.out 6 (0xE0 ||| (dsel <<< 4) ||| (lba28 / 2 ^ 24 % 16))
  let t := t.out 2 count
  let t := t.out 3 lba28
  let t := t.out 4 (lba28 / 2 ^ 8)
  let t := t.out 5 (lba28 / 2 ^ 16)
  t.out 7 (if write then 0xCA else 0xC8)

/-- The registers of a command in 48-bit LBA mode. -/
def outLba48 (dsel lba count : Nat) (write : Bool) (t : TaskFile) : TaskFile :=
  let t := t.out 6 (0x40 ||| (dsel <<< 4))
  let t := t.out 2 0
  let t := t.out 3 (lba / 2 ^ 24)
  let t := t.out 4 (lba / 2 ^ 32)
  let t := t.out 5 (lba / 2 ^ 40)
  let t := t.out 2 count
  let t := t.out 3 lba
  let t := t.out 4 (lba / 2 ^ 8)
  let t := t.out 5 (lba / 2 ^ 16)
  t.out 7 (if write then 0x35 else 0x25)

/-- The physical region descriptor table, at the end of the buffer. -/
def buildPrdTable (dev : Device) (count : Nat) (buffer : Bytes) : Bytes :=
  (buffer.setDword 0xFFC0 dev.bufferAddress).setDword 0xFFC4 ((count * 512) &&& 0xFFFF ||| 0x80000000)

def prdBytes (buffer : Bytes) : Nat :=
  if buffer.word 0xFFC4 = 0 then 0x10000 else buffer.word 0xFFC4

def lowLba (r : Nat → UInt8) : Nat := (r 3).toNat + 2 ^ 8 * (r 4).toNat + 2 ^ 16 * (r 5).toNat

/-- The command as the selected drive reads it. -/
def decode (dsel : Nat) (t : TaskFile) (buffer : Bytes) : Option Command :=
  let code := (t.now 7).toNat
  let drive := (t.now 6).toNat
  if drive.testBit 6 = false ∨ drive / 16 % 2 ≠ dsel then none
  else if code = 0xC8 ∨ code = 0xCA then
    let count := (t.now 2).toNat
    some
      { write := code = 0xCA
        lba := lowLba t.now + 2 ^ 24 * (drive % 16)
        count := if count = 0 then 256 else count
        bytes := prdBytes buffer }
  else if code = 0x25 ∨ code = 0x35 then
    let count := (t.now 2).toNat + 256 * (t.before 2).toNat
    some
      { write := code = 0x35
        lba := lowLba t.now + 2 ^ 24 * lowLba t.before
        count := if count = 0 then 65536 else count
        bytes := prdBytes buffer }
  else none

/-- From the command register on: the command, the interrupt and its status. -/
def startCommand (dev : Device) (reply : Reply) (registers : TaskFile) (write : Bool) (m : Machine) :
    Option DeviceError × Machine :=
  let outcome := ⟨!reply.failed, reply.moved, reply.left⟩
  (if reply.failed then some (blockError write) else none,
    (decode (dev.nr % 2) registers m.buffer).elim m fun c => m.perform outcome c)

def ataReadWrite (dev : Device) (replies : Nat → Reply) : Driver := fun write lba count m =>
  let reply := replies m.attempts
  let m := { m with attempts := m.attempts + 1 }
  if count = 0 ∨ 127 < count then (some .overflow, m)
  else
    let m := { m with buffer := buildPrdTable dev count m.buffer }
    if reply.busy 0 then (some .busy, m)
    else
      let m := if write then m else { m with buffer := m.buffer.fill 0 0 (count * 512) }
      if reply.busy 1 ∨ reply.busy 2 then (some .busy, m)
      else if lba ≤ 0x0FFFFF00 ∨ getSectorCount dev ≤ 0x0FFFFFFF then
        startCommand dev reply (outLba28 (dev.nr % 2) lba count write reply.registers) write m
      else startCommand dev reply (outLba48 (dev.nr % 2) lba count write reply.registers) write m

/-- What happens before the loop: the lock of the channel, and its buffer. -/
structure Entry where
  (lockFails hasBuffer allocFails : Bool)

def readWriteCommon (dev : Device) (replies : Nat → Reply) (entry : Entry)
    (offset size address : Nat) (write : Bool) (m : Machine) : Report :=
  if offset % 512 ≠ 0 ∨ size % 512 ≠ 0 then ⟨some .alignment, 0, m⟩
  else if entry.lockFails then ⟨some .unexpected, 0, m⟩
  else if ¬ entry.hasBuffer ∧ entry.allocFails then ⟨some .memory, 0, m⟩
  else
    let m := if entry.hasBuffer then m else { m with buffer := m.buffer.fill 0 0 0x10000 }
    transferLoop (ataReadWrite dev replies) (getSectorCount dev) write address size size
      (offset / 512) 0 m

theorem deviceHead (dsel nibble : Nat) (hd : dsel < 2) (hn : nibble < 16) :
    (0xE0 ||| (dsel <<< 4) ||| nibble) = 0xE0 + 16 * dsel + nibble := by
  have h : ∀ d < 2, ∀ n < 16, (0xE0 ||| (d <<< 4) ||| n) = 0xE0 + 16 * d + n := by decide
  exact h dsel hd nibble hn

variable {count lba : Nat} {write : Bool}

variable (dev : Device)

theorem prdBytes_eq (buffer : Bytes) (h0 : 0 < count) (h : count ≤ 127) :
    prdBytes (buildPrdTable dev count buffer) = count * 512 := by
  have hmask : (count * 512) &&& 0xFFFF = count * 512 := by
    rw [show (0xFFFF : Nat) = 2 ^ 16 - 1 from rfl, Nat.and_two_pow_sub_one_eq_mod,
      Nat.mod_eq_of_lt (by omega)]
  have hword : (buildPrdTable dev count buffer).word 0xFFC4 = count * 512 := by
    unfold buildPrdTable Bytes.setDword
    rw [Bytes.word_setWord_of_ne (by omega), Bytes.word_setWord, hmask,
      show (65536 : Nat) = 2 ^ 16 from rfl, Nat.or_mod_two_pow, Nat.mod_eq_of_lt (by omega),
      show (0x80000000 : Nat) % 2 ^ 16 = 0 by decide, Nat.or_zero]
  unfold prdBytes
  rw [hword, if_neg (by omega)]

theorem lowLba_of {r : Nat → UInt8} {n : Nat} (h3 : r 3 = UInt8.ofNat n)
    (h4 : r 4 = UInt8.ofNat (n / 2 ^ 8)) (h5 : r 5 = UInt8.ofNat (n / 2 ^ 16)) :
    lowLba r = n % 2 ^ 24 := by
  unfold lowLba
  rw [h3, h4, h5, UInt8.toNat_ofNat', UInt8.toNat_ofNat', UInt8.toNat_ofNat']
  omega

theorem decode_lba28 {dsel : Nat} (t : TaskFile) (buffer : Bytes) (hd : dsel < 2)
    (hl : lba < 2 ^ 28) (h0 : 0 < count) (h : count ≤ 127) :
    decode dsel (outLba28 dsel lba count write t) buffer =
      some ⟨write, lba, count, prdBytes buffer⟩ := by
  have hl32 : lba % 2 ^ 32 = lba := Nat.mod_eq_of_lt (by omega)
  have hhead : ((outLba28 dsel lba count write t).now 6).toNat = 0xE0 + 16 * dsel + lba / 2 ^ 24 := by
    have : (outLba28 dsel lba count write t).now 6 =
        UInt8.ofNat (0xE0 ||| (dsel <<< 4) ||| (lba % 2 ^ 32 / 2 ^ 24 % 16)) := rfl
    rw [this, hl32, deviceHead dsel _ hd (by omega), UInt8.toNat_ofNat']
    omega
  have hcode : ((outLba28 dsel lba count write t).now 7).toNat = if write then 0xCA else 0xC8 := by
    cases write <;> rfl
  have hcount : ((outLba28 dsel lba count write t).now 2).toNat = count := by
    have : (outLba28 dsel lba count write t).now 2 = UInt8.ofNat count := rfl
    rw [this, UInt8.toNat_ofNat']
    omega
  have hlow : lowLba (outLba28 dsel lba count write t).now = lba % 2 ^ 24 := by
    rw [lowLba_of (n := lba % 2 ^ 32) rfl rfl rfl, hl32]
  have hbit : (0xE0 + 16 * dsel + lba / 2 ^ 24).testBit 6 = true := by
    rw [Nat.testBit_eq_decide_div_mod_eq, decide_eq_true_eq]
    omega
  unfold decode
  dsimp only
  rw [hhead, hcode, hcount, hlow, hbit, if_neg (by simp; omega)]
  have hlba : lba % 2 ^ 24 + 2 ^ 24 * ((0xE0 + 16 * dsel + lba / 2 ^ 24) % 16) = lba := by omega
  rw [hlba, if_neg (by omega : ¬ count = 0)]
  cases write <;> rfl

theorem decode_lba48 {dsel : Nat} (t : TaskFile) (buffer : Bytes) (hd : dsel < 2)
    (hl : lba < 2 ^ 48) (h0 : 0 < count) (h : count ≤ 127) :
    decode dsel (outLba48 dsel lba count write t) buffer =
      some ⟨write, lba, count, prdBytes buffer⟩ := by
  have hhead : ((outLba48 dsel lba count write t).now 6).toNat = 0x40 + 16 * dsel := by
    have hor : ∀ d < 2, (UInt8.ofNat (0x40 ||| (d <<< 4))).toNat = 0x40 + 16 * d := by decide
    exact hor dsel hd
  have hcode : ((outLba48 dsel lba count write t).now 7).toNat = if write then 0x35 else 0x25 := by
    cases write <;> rfl
  have hcount : ((outLba48 dsel lba count write t).now 2).toNat +
      256 * ((outLba48 dsel lba count write t).before 2).toNat = count := by
    have h2 : (outLba48 dsel lba count write t).now 2 = UInt8.ofNat count := rfl
    have hb : (outLba48 dsel lba count write t).before 2 = UInt8.ofNat 0 := rfl
    rw [h2, hb, UInt8.toNat_ofNat', UInt8.toNat_ofNat']
    omega
  have hlow : lowLba (outLba48 dsel lba count write t).now = lba % 2 ^ 24 :=
    lowLba_of rfl rfl rfl
  have hhigh : lowLba (outLba48 dsel lba count write t).before = lba / 2 ^ 24 := by
    rw [lowLba_of (n := lba / 2 ^ 24) rfl (by rw [Nat.div_div_eq_div_mul]; rfl)
      (by rw [Nat.div_div_eq_div_mul]; rfl)]
    omega
  have hbit : (0x40 + 16 * dsel).testBit 6 = true := by
    rw [Nat.testBit_eq_decide_div_mod_eq, decide_eq_true_eq]
    omega
  unfold decode
  dsimp only
  rw [hhead, hcode, hcount, hlow, hhigh, hbit, if_neg (by simp; omega),
    Nat.mod_add_div lba, if_neg (by omega : ¬ count = 0)]
  cases write <;> rfl

theorem startCommand_served {dev : Device} {reply : Reply} {registers : TaskFile} {m : Machine}
    {quiet : Prop} (hq : quiet → reply.moved = 0)
    (hd : decode (dev.nr % 2) registers m.buffer = some ⟨write, lba, count, count * 512⟩) :
    Served quiet write lba count m (startCommand dev reply registers write m).1
      (startCommand dev reply registers write m).2 := by
  unfold startCommand
  rw [hd]
  have hs := Served.perform ⟨!reply.failed, reply.moved, reply.left⟩ write lba count m
    (blockError write) hq
  cases hf : reply.failed <;> simpa [hf] using hs

theorem ataReadWrite_serves (replies : Nat → Reply) :
    Serves (ataReadWrite dev replies) (∀ k, (replies k).moved = 0) (getSectorCount dev) := by
  intro write lba count m h0 hle hend
  have hq : (∀ k, (replies k).moved = 0) → (replies m.attempts).moved = 0 := fun h => h _
  have hsectors : getSectorCount dev < 2 ^ 48 := identifySectors_lt _
  have hnr : dev.nr % 2 < 2 := Nat.mod_lt _ (by omega)
  unfold ataReadWrite
  dsimp only
  rw [if_neg (by omega)]
  have hprd (k : Nat) (hk : k < 0xFE00) : buildPrdTable dev count m.buffer k = m.buffer k := by
    unfold buildPrdTable
    rw [Bytes.setDword_of_ne (by omega), Bytes.setDword_of_ne (by omega)]
  split
  · exact Served.refused _ rfl rfl (fun _ => hprd) rfl
  -- the buffer as the command finds it
  generalize hm1 : (if write = true then
      { m with attempts := m.attempts + 1, buffer := buildPrdTable dev count m.buffer }
    else { m with attempts := m.attempts + 1,
                  buffer := (buildPrdTable dev count m.buffer).fill 0 0 (count * 512) }) = m1
  have hbytes : prdBytes m1.buffer = count * 512 := by
    rw [← prdBytes_eq dev m.buffer h0 hle, ← hm1]
    cases write with
    | true => rfl
    | false =>
      have hword : ((buildPrdTable dev count m.buffer).fill 0 0 (count * 512)).word 0xFFC4 =
          (buildPrdTable dev count m.buffer).word 0xFFC4 :=
        Bytes.word_congr (Bytes.fill_outside (by omega)) (Bytes.fill_outside (by omega))
      simp only [prdBytes, Bool.false_eq_true, if_false, hword]
  have hsame : m1.device = m.device ∧ m1.memory = m.memory ∧ m1.issued = m.issued := by
    rw [← hm1]
    split <;> exact ⟨rfl, rfl, rfl⟩
  have hbuffer : write = true → ∀ k, k < 0xFE00 → m1.buffer k = m.buffer k := by
    intro hw k hk
    rw [← hm1, if_pos hw]
    exact hprd k hk
  split
  · exact Served.refused _ hsame.1 hsame.2.1 hbuffer hsame.2.2
  split
  · refine (startCommand_served hq ?_).prepared hsame.1 hsame.2.1 hbuffer hsame.2.2 hle
    rw [decode_lba28 _ _ hnr (by omega) h0 hle, hbytes]
  · refine (startCommand_served hq ?_).prepared hsame.1 hsame.2.1 hbuffer hsame.2.2 hle
    rw [decode_lba48 _ _ hnr (by omega) h0 hle, hbytes]

theorem readWriteCommon_reported (replies : Nat → Reply) (entry : Entry) (offset size address : Nat)
    (write : Bool) (m : Machine) (hm : m.issued = []) :
    Reported write (∀ k, (replies k).moved = 0) (getSectorCount dev) offset address size m
      (readWriteCommon dev replies entry offset size address write m) := by
  unfold readWriteCommon
  iterate 3
    split
    · exact Reported.refused hm
  split
  · exact transferLoop_reported (ataReadWrite_serves dev replies) (by omega) (by omega) size _ 0 m
      (by omega) (by omega) (Standing.start hm)
  · exact @transferLoop_reported _ _ _ _ _ _ _ (ataReadWrite_serves dev replies) (by omega) (by omega)
      m size _ 0 _ (by omega) (by omega)
      ⟨Progress.start, rfl, Or.inl rfl, fun c hc => by rw [hm] at hc; cases hc⟩

end Dancy.Block.Ide
