import Mathlib.Data.Nat.Bitwise

/-!
# The real-time clock

The kernel and the boot loader have the same translation of the CMOS
registers. A register holds a field in BCD or in binary, and the hour on a
clock of 24 or of 12 hours.
-/

namespace Dancy.Rtc

/-- `struct rtc_regs`, without the status that says when to read them. -/
structure RtcRegs where
  (second minute hour day month year century statusB : Nat)

/-- `struct rtc_time` and `struct b_time`. -/
structure RtcTime where
  (year month day hour minute second : Nat)
deriving DecidableEq

/-- `BCD_1` and `BIN_1` at the width 8, `BCD_2` and `BIN_2` at 16. -/
def field (width : Nat) (bcd : Bool) (a : Nat) : Nat :=
  (if bcd then (a &&& 0x0F) + (a >>> 4) * 10 else a) % 2 ^ width

def RtcRegs.h12 (regs : RtcRegs) : Bool := regs.statusB &&& 2 = 0

def RtcRegs.bcd (regs : RtcRegs) : Bool := regs.statusB &&& 4 = 0

/-- The hour, where an hour with the flag is after noon. -/
def hourOf (bcd h12 : Bool) (a : Nat) : Nat :=
  if h12 ∧ a &&& 0x80 ≠ 0 then (field 8 bcd (a &&& 0x7F) + 12) % 24 else field 8 bcd (a &&& 0x7F)

def RtcRegs.time (regs : RtcRegs) : RtcTime :=
  let century := field 16 regs.bcd regs.century
  let year := field 16 regs.bcd regs.year
  { year := (if century ≥ 19 then year + century * 100
      else year + if year ≥ 80 then 1900 else 2000) % 2 ^ 16
    month := field 8 regs.bcd regs.month
    day := field 8 regs.bcd regs.day
    hour := hourOf regs.bcd regs.h12 regs.hour
    minute := field 8 regs.bcd regs.minute
    second := field 8 regs.bcd regs.second }

/-- The result for a time; there is no check of the second. -/
def RtcTime.check (rt : RtcTime) : Nat :=
  if ¬(rt.month ≥ 1 ∧ rt.month ≤ 12) then 1
  else if ¬(rt.day ≥ 1 ∧ rt.day ≤ 31) then 1
  else if ¬rt.hour ≤ 59 then 1
  else if ¬rt.minute ≤ 59 then 1
  else 0

def translateRegs (regs : RtcRegs) : Nat × RtcTime := (regs.time.check, regs.time)

/-- `translate` of `kernel/misc/rtc.c`. -/
def kernelTranslate (regs : RtcRegs) : Nat × RtcTime := translateRegs regs

/-- `translate` of `boot/init/rtc.c`. -/
def bootTranslate (regs : RtcRegs) : Nat × RtcTime := translateRegs regs

/-! ## The registers of a time -/

def register (bcd : Bool) (n : Nat) : Nat := if bcd then n / 10 * 16 + n % 10 else n

/-- The hour; twelve o'clock is 12 on a clock of 12 hours. -/
def hourRegister (bcd h12 : Bool) (h : Nat) : Nat :=
  if h12 then
    register bcd (if h % 12 = 0 then 12 else h % 12) + if 12 ≤ h then 0x80 else 0
  else register bcd h

def RtcTime.regs (t : RtcTime) (statusB : Nat) : RtcRegs :=
  let bcd : Bool := statusB &&& 4 = 0
  { second := register bcd t.second
    minute := register bcd t.minute
    hour := hourRegister bcd (statusB &&& 2 = 0) t.hour
    day := register bcd t.day
    month := register bcd t.month
    year := register bcd (t.year % 100)
    century := register bcd (t.year / 100)
    statusB }

def RtcTime.TimeOfDay (t : RtcTime) : Prop := t.hour ≤ 23 ∧ t.minute ≤ 59 ∧ t.second ≤ 59

structure RtcTime.Valid (t : RtcTime) : Prop where
  year : 1980 ≤ t.year ∧ t.year ≤ 9999
  month : 1 ≤ t.month ∧ t.month ≤ 12
  day : 1 ≤ t.day ∧ t.day ≤ 31
  timeOfDay : t.TimeOfDay

theorem field_register (bcd : Bool) {n width : Nat} (h : n ≤ 99) (hwidth : 8 ≤ width) :
    field width bcd (register bcd n) = n := by
  have hpow : 2 ^ 8 ≤ 2 ^ width := Nat.pow_le_pow_right (by omega) hwidth
  rw [field, Nat.mod_eq_of_lt] <;> cases bcd <;>
    simp only [register, if_true, Bool.false_eq_true, if_false, Nat.shiftRight_eq_div_pow,
      show (0x0F : Nat) = 2 ^ 4 - 1 from rfl, Nat.and_two_pow_sub_one_eq_mod] <;> omega

/-- Twelve o'clock is taken for the other one. -/
theorem hourOf_register : ∀ (bcd h12 : Bool), ∀ h < 24,
    hourOf bcd h12 (hourRegister bcd h12 h) = if h12 ∧ h % 12 = 0 then 12 - h else h := by
  decide

theorem RtcTime.Valid.time_regs {t : RtcTime} (h : t.Valid) (statusB : Nat) :
    (t.regs statusB).time =
      { t with hour := if statusB &&& 2 = 0 ∧ t.hour % 12 = 0 then 12 - t.hour else t.hour } := by
  obtain ⟨hyear, hmonth, hday, hhour, hminute, hsecond⟩ := h
  have h99 : ∀ n ≤ 99, ∀ bcd, field 8 bcd (register bcd n) = n ∧ field 16 bcd (register bcd n) = n :=
    fun n hn bcd => ⟨field_register bcd hn (by decide), field_register bcd hn (by decide)⟩
  have hnoon := hourOf_register (statusB &&& 4 = 0) (statusB &&& 2 = 0) t.hour (by omega)
  simp only [decide_eq_true_eq] at hnoon
  have hbcd : (t.regs statusB).bcd = decide (statusB &&& 4 = 0) := rfl
  have hh12 : (t.regs statusB).h12 = decide (statusB &&& 2 = 0) := rfl
  rw [RtcRegs.time, hbcd, hh12]
  simp only [RtcTime.regs, h99 t.second (by omega),
    h99 t.minute (by omega), h99 t.day (by omega), h99 t.month (by omega),
    h99 (t.year / 100) (by omega), h99 (t.year % 100) (by omega), hnoon]
  rw [if_pos (by omega), Nat.mod_add_div', Nat.mod_eq_of_lt (by omega)]

theorem RtcTime.check_eq_zero {rt : RtcTime} : rt.check = 0 ↔
    (1 ≤ rt.month ∧ rt.month ≤ 12) ∧ (1 ≤ rt.day ∧ rt.day ≤ 31) ∧ rt.hour ≤ 59 ∧ rt.minute ≤ 59 := by
  unfold RtcTime.check
  iterate 4
    split
    · simp; omega
  · simp; omega

theorem hourOf_le (bcd h12 : Bool) (a : Nat) : hourOf bcd h12 a ≤ 23 ↔
    (h12 ∧ a &&& 0x80 ≠ 0) ∨ field 8 bcd (a &&& 0x7F) ≤ 23 := by
  unfold hourOf
  split
  · rename_i hflag
    exact iff_of_true (by omega) (.inl hflag)
  · rename_i hflag
    exact (or_iff_right hflag).symm

/-- Both translations are right but for the hours 0 and 12 of a clock of 12
hours, and let pass an hour from 24 on without the flag of a clock of 12
hours, and a second from 60 on. -/
theorem translate_iff {translate : RtcRegs → Nat × RtcTime}
    (hcopy : translate = kernelTranslate ∨ translate = bootTranslate) :
    (∀ t : RtcTime, t.Valid → ∀ statusB, translate (t.regs statusB) = (0, t) ↔
      ¬(statusB &&& 2 = 0 ∧ t.hour % 12 = 0)) ∧
    ∀ regs, (translate regs).1 = 0 → ((translate regs).2.TimeOfDay ↔
      ((regs.h12 ∧ regs.hour &&& 0x80 ≠ 0) ∨ field 8 regs.bcd (regs.hour &&& 0x7F) ≤ 23) ∧
        field 8 regs.bcd regs.second ≤ 59) := by
  have heq : translate = translateRegs := by
    rcases hcopy with rfl | rfl <;> rfl
  rw [heq]
  refine ⟨fun t ht statusB => ?_, fun regs h => ?_⟩
  · rw [translateRegs, ht.time_regs, RtcTime.check_eq_zero.mpr]
    · constructor
      · intro h hnoon
        rw [if_pos hnoon] at h
        have hhour : 12 - t.hour = t.hour := congrArg (fun r => r.2.hour) h
        omega
      · intro h
        rw [if_neg h]
    · have hhour := ht.timeOfDay.1
      refine ⟨ht.month, ht.day, ?_, ht.timeOfDay.2.1⟩
      dsimp only
      split <;> omega
  · have hcheck := RtcTime.check_eq_zero.mp h
    rw [← hourOf_le]
    exact ⟨fun ht => ⟨ht.1, ht.2.2⟩, fun ht => ⟨ht.1, hcheck.2.2.2, ht.2⟩⟩

theorem translate_iff_kernel :
    kernelTranslate ((⟨2026, 11, 20, 13, 5, 59⟩ : RtcTime).regs 0) = (0, ⟨2026, 11, 20, 13, 5, 59⟩) :=
  ((translate_iff (.inl rfl)).1 _ ⟨by decide, by decide, by decide, by decide, by decide, by decide⟩
    0).mpr (by decide)

/-- Half past twelve after noon becomes half past midnight. -/
theorem noon_translated :
    bootTranslate ((⟨2026, 11, 20, 12, 30, 0⟩ : RtcTime).regs 0) = (0, ⟨2026, 11, 20, 0, 30, 0⟩) ∧
      kernelTranslate ((⟨2026, 11, 20, 12, 30, 0⟩ : RtcTime).regs 0) ≠
        (0, ⟨2026, 11, 20, 12, 30, 0⟩) := by
  decide

end Dancy.Rtc
