import Dancy.Common.Epoch

/-!
# Calendar time of the library (`mktime.c`, `_time.c`)

The calendar is that of `epoch.c`: both files count the years from 1970 on
and the months from the first on. A product of the type `int` is wrapped to
32 bits, as on the machine; the sum of `mktime` is an `unsigned long long`.
-/

namespace Dancy.Libc

open Dancy.Common List

/-- `struct tm`. -/
structure Tm where
  (sec min hour mday mon year wday yday : Int)
  isdst : Int
deriving DecidableEq

def maxSeconds : Nat := 253402300799

/-- `__dancy_time`: the struct that it stores. `none` when the loops do not
end within `fuel` rounds. -/
def dancyTime (fuel : Nat) (timer : Int) : Option Tm :=
  let seconds := if timer > 0 then timer.toNat else 0
  let seconds := if seconds > maxSeconds then maxSeconds else seconds
  let wday := (seconds / 86400 + 4) % 7
  match takeUnits yearSeconds fuel 1970 seconds with
  | none => none
  | some (year, seconds) =>
    let yday := seconds / 86400
    match takeUnits (monthSeconds year) fuel 1 seconds with
    | none => none
    | some (mon, seconds) =>
      let day := seconds / 86400 + 1
      let seconds := seconds % 86400
      let hour := seconds / 3600
      let seconds := seconds % 3600
      some ⟨(seconds % 60 : Nat), (seconds / 60 : Nat), hour, day, (mon : Int) - 1,
        (year : Int) - 1900, wday, yday, -1⟩

/-- A product of the type `int`. -/
def intMul (a b : Int) : Int := Int.bmod (a * b) (2 ^ 32)

/-- `r += (unsigned long long)v`. -/
def addUll (r v : Int) : Int := (r + v) % 2 ^ 64

/-- `check_overflow_range`: whether it fails, and `*output`. -/
def checkOverflowRange (input : Int) : Bool × Int :=
  if input < 0 ∨ input > 0x7FFF then (true, 0) else (false, input)

/-- What `mktime` returns, the struct, and whether `errno` is `EOVERFLOW`. -/
structure MktimeResult where
  value : Int
  timeptr : Tm
  overflow : Bool
deriving DecidableEq

/-- The sum of `mktime`, from the year and the month as they are counted. -/
def mktimeSum (year mon : Nat) (day hour min sec : Int) : Int :=
  let r := (range' 1970 (year - 1970)).foldl (fun r i =>
    addUll r (if leapYear i then intMul 86400 366 else intMul 86400 365)) 0
  let r := (range' 1 (mon - 1)).foldl (fun r i =>
    addUll r (intMul 86400 (days (year + i / 12) ((i - 1) % 12 + 1)))) r
  let r := addUll r (intMul 86400 (day - 1))
  let r := addUll r (intMul 3600 hour)
  let r := addUll r (intMul 60 min)
  addUll r sec

def mktime (fuel : Nat) (timeptr : Tm) : Option MktimeResult :=
  let failed : MktimeResult := ⟨-1, timeptr, true⟩
  let sec := checkOverflowRange timeptr.sec
  let min := checkOverflowRange timeptr.min
  let hour := checkOverflowRange timeptr.hour
  let day := checkOverflowRange timeptr.mday
  let mon := checkOverflowRange timeptr.mon
  let year := checkOverflowRange timeptr.year
  if sec.1 || min.1 || hour.1 || day.1 || mon.1 || year.1 then some failed
  else if year.2 + 1900 < 1970 ∨ day.2 < 1 then some failed
  else
    let r := mktimeSum (year.2 + 1900).toNat (mon.2 + 1).toNat day.2 hour.2 min.2 sec.2
    if r > maxSeconds then some failed
    else
      match dancyTime fuel r with
      | none => none
      | some tm => some ⟨r, tm, false⟩

/-- The broken-down form of a date. The first of January 1970 was a Thursday. -/
def tmOf (c : Calendar) : Tm :=
  ⟨c.sec, c.min, c.hour, c.day, (c.mon : Int) - 1, (c.year : Int) - 1900,
    ((c.seconds / 86400 + 4) % 7 : Nat),
    ((c.seconds - unitsBefore yearSeconds 1970 (c.year - 1970)) / 86400 : Nat), -1⟩

def BrokenDown (t : Nat) (tm : Tm) : Prop := ∃ c : Calendar, c.Valid ∧ c.seconds = t ∧ tm = tmOf c

theorem dancyTime_brokenDown {fuel t : Nat} (hfuel : 8030 ≤ fuel) (ht : t ≤ maxSeconds) :
    ∃ tm, dancyTime fuel t = some tm ∧ BrokenDown t tm := by
  obtain ⟨year, rest, mon, left, hyears, hmonths, hvalid, hseconds, hsum⟩ :=
    takeUnits_date hfuel ht
  have hpos : (if (t : Int) > 0 then (t : Int).toNat else 0) = t := by
    split_ifs <;> omega
  refine ⟨tmOf (Calendar.ofRest year mon left), ?_, _, hvalid, hseconds, rfl⟩
  rw [dancyTime, hpos, if_neg (not_lt.2 ht)]
  rw [hyears]
  dsimp only
  rw [hmonths]
  have hrest : t - unitsBefore yearSeconds 1970
      ((Calendar.ofRest year mon left).year - 1970) = rest := by
    show t - unitsBefore yearSeconds 1970 (year - 1970) = rest
    omega
  rw [tmOf, hseconds, hrest]
  rfl

/-! ## The sum -/

/-- The date fields of a `struct tm` count on: month 12 is January of the next
year. -/
def tmSeconds (year mon day hour min sec : Nat) : Nat :=
  monthStart (year + mon / 12) (mon % 12 + 1) + 86400 * (day - 1) + 3600 * hour + 60 * min + sec

/-- The loop over the months counts on, too. The year that it takes for a
December is the one after, which has the same December. -/
theorem monthStart_carry (year n : Nat) (hyear : 1970 ≤ year) :
    unitsBefore yearSeconds 1970 (year - 1970) +
        ((range' 1 n).map fun i => monthSeconds (year + i / 12) ((i - 1) % 12 + 1)).sum =
      monthStart (year + n / 12) (n % 12 + 1) := by
  induction n with
  | zero => rfl
  | succ n ih =>
    rw [range'_1_concat, map_append, sum_append, ← add_assoc, ih]
    simp only [map_cons, map_nil, sum_cons, sum_nil, add_zero,
      add_comm 1 n, Nat.add_sub_cancel]
    by_cases hdec : n % 12 = 11
    · have hnext : (n + 1) / 12 = n / 12 + 1 ∧ (n + 1) % 12 = 0 := by omega
      have hsucc := @unitsBefore_succ_last (monthSeconds (year + n / 12)) 1 11
      have hyears := @unitsBefore_succ_last yearSeconds 1970 (year + n / 12 - 1970)
      rw [show 11 + 1 = 12 from rfl, unitsBefore_months] at hsucc
      rw [show 1970 + (year + n / 12 - 1970) = year + n / 12 by omega,
        show year + n / 12 - 1970 + 1 = year + (n / 12 + 1) - 1970 by omega] at hyears
      have hsame : monthSeconds (year + (n / 12 + 1)) 12 = monthSeconds (year + n / 12) 12 := rfl
      have hnone : unitsBefore (monthSeconds (year + (n / 12 + 1))) 1 0 = 0 := rfl
      rw [hnext.1, hnext.2, hdec, hsame]
      simp only [monthStart, Nat.add_sub_cancel]
      omega
    · have hnext : (n + 1) / 12 = n / 12 ∧ (n + 1) % 12 = n % 12 + 1 := by omega
      rw [hnext.1, hnext.2]
      have hsucc := @unitsBefore_succ_last (monthSeconds (year + n / 12)) 1 (n % 12)
      simp only [monthStart, Nat.add_sub_cancel]
      rw [hsucc, add_comm 1 (n % 12), add_assoc]

theorem addUll_mod (r v : Int) : addUll (r % 2 ^ 64) v = (r + v) % 2 ^ 64 :=
  Int.emod_add_emod ..

theorem foldl_addUll (length : Nat → Nat) (l : List Nat) : ∀ r : Nat,
    l.foldl (fun r i => addUll r (length i)) ((r : Int) % 2 ^ 64) =
      ((r + (l.map length).sum : Nat) : Int) % 2 ^ 64 := by
  induction l with
  | nil => simp
  | cons i l ih =>
    intro r
    rw [foldl_cons, addUll_mod, ← Int.natCast_add, ih, map_cons, sum_cons, add_assoc]

theorem intMul_exact {a b : Int} (h : -2 ^ 31 ≤ a * b ∧ a * b < 2 ^ 31) : intMul a b = a * b := by
  rw [intMul, Int.bmod_eq_of_le]
  · omega
  · omega

theorem intMul_year (year : Nat) :
    (if leapYear year then intMul 86400 366 else intMul 86400 365) = (yearSeconds year : Int) := by
  have h366 : intMul 86400 366 = 31622400 := by decide
  have h365 : intMul 86400 365 = 31536000 := by decide
  rw [h366, h365, yearSeconds]
  cases leapYear year <;> rfl

theorem intMul_month (year mon : Nat) : intMul 86400 (days year mon) = (monthSeconds year mon : Int) := by
  have hle := days_le year mon
  rw [intMul_exact (by omega), monthSeconds]
  rfl

/-- The sum of `mktime`, modulo 2 ^ 64: the calendar is exact, the `int`
products may not be. -/
theorem mktimeSum_eq {year : Nat} (hyear : 1970 ≤ year) (mon : Nat) (day hour min sec : Int) :
    mktimeSum year (mon + 1) day hour min sec =
      (monthStart (year + mon / 12) (mon % 12 + 1) + intMul 86400 (day - 1) + intMul 3600 hour +
        intMul 60 min + sec) % 2 ^ 64 := by
  simp only [mktimeSum, intMul_year, intMul_month, Nat.add_sub_cancel]
  have hyears : (range' 1970 (year - 1970)).foldl (fun r i => addUll r (yearSeconds i)) 0 =
      (unitsBefore yearSeconds 1970 (year - 1970) : Int) % 2 ^ 64 := by
    have h := foldl_addUll yearSeconds (range' 1970 (year - 1970)) 0
    rwa [zero_add] at h
  have hmonths := foldl_addUll (fun i => monthSeconds (year + i / 12) ((i - 1) % 12 + 1))
    (range' 1 mon) (unitsBefore yearSeconds 1970 (year - 1970))
  rw [monthStart_carry year mon hyear] at hmonths
  rw [hyears, hmonths, addUll_mod, addUll_mod, addUll_mod, addUll_mod]

/-! ## `mktime` -/

/-- The fields that `mktime` accepts. -/
structure Accepted (tm : Tm) : Prop where
  sec : 0 ≤ tm.sec ∧ tm.sec ≤ 0x7FFF
  min : 0 ≤ tm.min ∧ tm.min ≤ 0x7FFF
  hour : 0 ≤ tm.hour ∧ tm.hour ≤ 0x7FFF
  mday : 1 ≤ tm.mday ∧ tm.mday ≤ 0x7FFF
  mon : 0 ≤ tm.mon ∧ tm.mon ≤ 0x7FFF
  year : 70 ≤ tm.year ∧ tm.year ≤ 0x7FFF

/-- The seconds from 1970 on that the fields add up to. -/
def Tm.seconds (tm : Tm) : Nat :=
  tmSeconds (tm.year.toNat + 1900) tm.mon.toNat tm.mday.toNat tm.hour.toNat tm.min.toNat
    tm.sec.toNat

theorem checkOverflowRange_ok {input : Int} (h : 0 ≤ input ∧ input ≤ 0x7FFF) :
    checkOverflowRange input = (false, input) := if_neg (by omega)

theorem mktime_accepted {tm : Tm} (h : Accepted tm) (fuel : Nat) :
    mktime fuel tm =
      (let r : Int := ((tm.seconds : Int) - 86400 * (tm.mday - 1) + intMul 86400 (tm.mday - 1)) % 2 ^ 64
      if r > maxSeconds then some ⟨-1, tm, true⟩
      else
        match dancyTime fuel r with
        | none => none
        | some tm => some ⟨r, tm, false⟩) := by
  have hsec := h.sec
  have hmin := h.min
  have hhour := h.hour
  have hmday := h.mday
  have hmon := h.mon
  have hyear := h.year
  have hr : mktimeSum (tm.year + 1900).toNat (tm.mon + 1).toNat tm.mday tm.hour tm.min tm.sec =
      ((tm.seconds : Int) - 86400 * (tm.mday - 1) + intMul 86400 (tm.mday - 1)) % 2 ^ 64 := by
    have hy : (tm.year + 1900).toNat = tm.year.toNat + 1900 := by omega
    have hm : (tm.mon + 1).toNat = tm.mon.toNat + 1 := by omega
    rw [hy, hm, mktimeSum_eq (by omega), @intMul_exact 3600 tm.hour (by omega),
      @intMul_exact 60 tm.min (by omega), Tm.seconds, tmSeconds]
    congr 1
    omega
  simp only [mktime, checkOverflowRange_ok hsec, checkOverflowRange_ok hmin,
    checkOverflowRange_ok hhour, checkOverflowRange_ok (⟨by omega, hmday.2⟩),
    checkOverflowRange_ok hmon, checkOverflowRange_ok (show 0 ≤ tm.year ∧ _ from ⟨by omega, hyear.2⟩),
    Bool.or_false, Bool.false_eq_true, if_false]
  rw [if_neg (by omega), hr]

theorem intMul_overflow {mday : Int} (hle : mday ≤ 0x7FFF) (h : 2 ^ 31 ≤ 86400 * (mday - 1)) :
    intMul 86400 (mday - 1) = 86400 * (mday - 1) - 2 ^ 32 := by
  have hsame : intMul 86400 (mday - 1) = Int.bmod (86400 * (mday - 1) - 2 ^ 32) (2 ^ 32) := by
    rw [intMul, ← Int.sub_bmod_right (86400 * (mday - 1))]
    rfl
  rw [hsame, Int.bmod_eq_of_le]
  · omega
  · omega

theorem mktime_days_fit {fuel : Nat} {tm : Tm} (h : Accepted tm) (hle : tm.seconds ≤ maxSeconds)
    (hfit : 86400 * (tm.mday - 1) < 2 ^ 31) :
    mktime fuel tm = (dancyTime fuel tm.seconds).map fun tm' => ⟨tm.seconds, tm', false⟩ := by
  have hmday := h.mday
  have hr : ((tm.seconds : Int) - 86400 * (tm.mday - 1) + intMul 86400 (tm.mday - 1)) % 2 ^ 64 =
      tm.seconds := by
    unfold maxSeconds at hle
    rw [intMul_exact (by omega)]
    omega
  rw [mktime_accepted h, hr]
  rw [if_neg (by omega)]
  cases dancyTime fuel tm.seconds with
  | none | some => rfl

theorem mktime_days_overflow {fuel : Nat} {tm tm' : Tm} (h : Accepted tm)
    (hover : 2 ^ 31 ≤ 86400 * (tm.mday - 1)) :
    mktime fuel tm ≠ some ⟨tm.seconds, tm', false⟩ := by
  have hmday := h.mday
  intro hm
  rw [mktime_accepted h, intMul_overflow hmday.2 hover] at hm
  dsimp only at hm
  generalize hr : ((tm.seconds : Int) - 86400 * (tm.mday - 1) +
    (86400 * (tm.mday - 1) - 2 ^ 32)) % 2 ^ 64 = r at hm
  split at hm
  · simp at hm
  cases hd : dancyTime fuel r with
  | none =>
    rw [hd] at hm
    cases hm
  | some tm'' =>
    rw [hd] at hm
    have hval : r = tm.seconds := congrArg MktimeResult.value (Option.some.inj hm)
    omega

/-- The broken-down form of a date is accepted, and adds up to the date. -/
theorem tmOf_accepted {c : Calendar} (h : c.Valid) :
    Accepted (tmOf c) ∧ (tmOf c).seconds = c.seconds ∧ (tmOf c).mday ≤ 31 := by
  have hyear := h.year
  have hmon := h.mon
  have hday := h.day
  have hdays := days_le c.year c.mon
  have hhour := h.hour
  have hmin := h.min
  have hsec := h.sec
  refine ⟨⟨?_, ?_, ?_, ?_, ?_, ?_⟩, ?_, ?_⟩
  · exact (by omega : 0 ≤ (c.sec : Int) ∧ (c.sec : Int) ≤ 0x7FFF)
  · exact (by omega : 0 ≤ (c.min : Int) ∧ (c.min : Int) ≤ 0x7FFF)
  · exact (by omega : 0 ≤ (c.hour : Int) ∧ (c.hour : Int) ≤ 0x7FFF)
  · exact (by omega : 1 ≤ (c.day : Int) ∧ (c.day : Int) ≤ 0x7FFF)
  · exact (by omega : 0 ≤ (c.mon : Int) - 1 ∧ (c.mon : Int) - 1 ≤ 0x7FFF)
  · exact (by omega : 70 ≤ (c.year : Int) - 1900 ∧ (c.year : Int) - 1900 ≤ 0x7FFF)
  · have hy : ((c.year : Int) - 1900).toNat + 1900 + ((c.mon : Int) - 1).toNat / 12 = c.year := by
      omega
    have hm : ((c.mon : Int) - 1).toNat % 12 + 1 = c.mon := by omega
    show tmSeconds (((c.year : Int) - 1900).toNat + 1900) ((c.mon : Int) - 1).toNat
      (c.day : Int).toNat (c.hour : Int).toNat (c.min : Int).toNat (c.sec : Int).toNat = c.seconds
    rw [tmSeconds, hy, hm]
    rfl
  · exact (by omega : (c.day : Int) ≤ 31)

/-- **`mktime`** is exact, and normalizes the struct, just when the seconds of
the days are an `int`; and it inverts the broken-down form. -/
theorem mktime_exact {fuel : Nat} (hfuel : 8030 ≤ fuel) :
    (∀ tm, Accepted tm → tm.seconds ≤ maxSeconds →
      ((∃ tm', mktime fuel tm = some ⟨tm.seconds, tm', false⟩ ∧ BrokenDown tm.seconds tm') ↔
        86400 * (tm.mday - 1) < 2 ^ 31)) ∧
    ∀ t : Nat, t ≤ maxSeconds →
      ∃ tm, dancyTime fuel t = some tm ∧ BrokenDown t tm ∧ mktime fuel tm = some ⟨t, tm, false⟩ := by
  refine ⟨fun tm h hle => ⟨?_, fun hfit => ?_⟩, fun t ht => ?_⟩
  · rintro ⟨tm', hm, -⟩
    by_contra hover
    exact mktime_days_overflow h (by omega) hm
  · obtain ⟨tm', htm, hform⟩ := dancyTime_brokenDown hfuel hle
    refine ⟨tm', ?_, hform⟩
    rw [mktime_days_fit h hle hfit, htm]
    rfl
  obtain ⟨tm, htm, hform⟩ := dancyTime_brokenDown hfuel ht
  refine ⟨tm, htm, hform, ?_⟩
  obtain ⟨c, hvalid, rfl, rfl⟩ := hform
  obtain ⟨hacc, hsum, hmday⟩ := tmOf_accepted hvalid
  rw [mktime_days_fit hacc (hsum ▸ ht) (by omega), hsum, htm]
  rfl

/-- The 32nd of January 1970 is the first of February. -/
theorem mktime_exact_first :
    ∃ tm, mktime 8030 ⟨0, 0, 0, 32, 0, 70, 0, 0, 0⟩ = some ⟨2678400, tm, false⟩ ∧
      BrokenDown 2678400 tm :=
  ((mktime_exact le_rfl).1 ⟨0, 0, 0, 32, 0, 70, 0, 0, 0⟩
    ⟨by decide, by decide, by decide, by decide, by decide, by decide⟩ (by decide)).mpr (by decide)

def lateDay : Tm := ⟨0, 0, 0, 30000, 0, 70, 0, 0, 0⟩

/-- The product of that day is negative, and the sum is refused. -/
theorem mktime_late_day :
    Accepted lateDay ∧ lateDay.seconds = 2591913600 ∧
      mktime 8030 lateDay = some ⟨-1, lateDay, true⟩ :=
  ⟨⟨by decide, by decide, by decide, by decide, by decide, by decide⟩, by decide, by decide⟩

end Dancy.Libc
