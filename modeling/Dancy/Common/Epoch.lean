import Mathlib.Algebra.Order.Ring.Nat
import Mathlib.Data.List.Induction

/-!
# Calendar time (`common/epoch.c`)

`epoch_seconds` reads a text `YYYY-MM-DDThh:mm:ss`, `epoch_convert` writes
one. Both count years from 1970 on and months from the first on.
-/

namespace Dancy.Common

open List Option

/-! ## The code -/

def leapYear (year : Nat) : Bool :=
  if year % 4 ≠ 0 then false
  else if year % 100 ≠ 0 then true
  else if year % 400 ≠ 0 then false
  else true

def days (year : Nat) : (month : Nat) → Nat
  | 1 => 31
  | 2 => if leapYear year then 29 else 28
  | 3 => 31
  | 4 => 30
  | 5 => 31
  | 6 => 30
  | 7 => 31
  | 8 => 31
  | 9 => 30
  | 10 => 31
  | 11 => 30
  | 12 => 31
  | _ => 0

/-- The loop of `read_number`. -/
def readNumberLoop : (str : List UInt8) → (val : Int) → Int
  | [], val => val
  | c :: cs, val =>
    if c.toNat < 48 ∨ 57 < c.toNat then -1
    else readNumberLoop cs (val * 10 + ((c.toNat : Int) - 48))

def readNumber (str : List UInt8) (i len : Nat) : Int := readNumberLoop ((str.drop i).take len) 0

/-- The digits of `write_number`, the last one first. The buffer has zeros
where the loop ends before. -/
def lowDigits : (len val : Nat) → List UInt8
  | 0, _ => []
  | len + 1, val =>
    let r := val % 10
    let val := val / 10
    if val = 0 ∧ r = 0 then replicate (len + 1) 48
    else UInt8.ofNat (48 + r) :: lowDigits len val

/-- `write_number`: what it writes; its buffer has four digits. -/
def writeNumber (len val : Nat) : List UInt8 :=
  if 4 < len then [] else (lowDigits len val).reverse

def yearSeconds (year : Nat) : Nat := if leapYear year then 86400 * 366 else 86400 * 365

def monthSeconds (year month : Nat) : Nat := 86400 * days year month

def unknownFormat : Int := -2 ^ 63

def epochSeconds (iso : List UInt8) : Int :=
  if iso.getD 4 0 ≠ 45 ∨ iso.getD 7 0 ≠ 45 then unknownFormat
  else if iso.getD 10 0 ≠ 84 then unknownFormat
  else if iso.getD 13 0 ≠ 58 ∨ iso.getD 16 0 ≠ 58 then unknownFormat
  else
    let year := readNumber iso 0 4
    let mon := readNumber iso 5 2
    let day := readNumber iso 8 2
    let hour := readNumber iso 11 2
    let min := readNumber iso 14 2
    let sec := readNumber iso 17 2
    if ¬ (1 ≤ mon ∧ mon ≤ 12) ∨ ¬ (1 ≤ day ∧ day ≤ 31) ∨ ¬ (0 ≤ hour ∧ hour ≤ 23) ∨
        ¬ (0 ≤ min ∧ min ≤ 59) ∨ ¬ (0 ≤ sec ∧ sec ≤ 59) ∨ year < 1970 then unknownFormat
    else if (days year.toNat mon.toNat : Int) < day then unknownFormat
    else
      let secs := (range' 1970 (year.toNat - 1970)).foldl
        (fun secs i => secs + (yearSeconds i : Int)) 0
      let secs := (range' 1 (mon.toNat - 1)).foldl
        (fun secs i => secs + (monthSeconds year.toNat i : Int)) secs
      secs + 86400 * (day - 1) + 3600 * hour + 60 * min + sec

/-- The loops over years and months of `epoch_convert`: takes the lengths of
the units from `seconds`, the unit `i` first, as long as they fit. `none` when
they do not end within `fuel` rounds. -/
def takeUnits (length : Nat → Nat) : (fuel i seconds : Nat) → Option (Nat × Nat)
  | 0, _, _ => none
  | fuel + 1, i, seconds =>
    if seconds < length i then some (i, seconds)
    else takeUnits length fuel (i + 1) (seconds - length i)

structure Calendar where
  (year mon day hour min sec : Nat)
deriving DecidableEq

/-- The text `YYYY-MM-DDThh:mm:ss`. -/
def Calendar.text (c : Calendar) : List UInt8 :=
  writeNumber 4 c.year ++ 45 :: (writeNumber 2 c.mon ++ 45 :: (writeNumber 2 c.day ++
    84 :: (writeNumber 2 c.hour ++ 58 :: (writeNumber 2 c.min ++ 58 :: writeNumber 2 c.sec))))

/-- The numbers that `epoch_convert` writes. -/
def calendarOf (fuel seconds : Nat) : Option Calendar :=
  if seconds < 253402300799 then
    match takeUnits yearSeconds fuel 1970 seconds with
    | none => none
    | some (year, seconds) =>
      match takeUnits (monthSeconds year) fuel 1 seconds with
      | none => none
      | some (mon, seconds) =>
        let day := seconds / 86400 + 1
        let seconds := seconds % 86400
        let hour := seconds / 3600
        let seconds := seconds % 3600
        some ⟨year, mon, day, hour, seconds / 60, seconds % 60⟩
  else some ⟨9999, 12, 31, 23, 59, 59⟩

def epochConvert (fuel seconds : Nat) : Option (List UInt8) :=
  (calendarOf fuel seconds).map Calendar.text

/-! ## Digits -/

def IsDigit (c : UInt8) : Prop := 48 ≤ c.toNat ∧ c.toNat ≤ 57

/-- The value of decimal digits behind the number `v`. -/
def digitsValue (v : Nat) (cs : List UInt8) : Nat :=
  cs.foldl (fun v c => v * 10 + (c.toNat - 48)) v

theorem readNumberLoop_digits {cs : List UInt8} (h : ∀ c ∈ cs, IsDigit c) : ∀ v : Nat,
    readNumberLoop cs v = digitsValue v cs := by
  induction cs with
  | nil => exact fun _ => rfl
  | cons c cs ih =>
    intro v
    obtain ⟨hlo, hhi⟩ := h c mem_cons_self
    rw [readNumberLoop, if_neg (by omega)]
    have hval : (v : Int) * 10 + ((c.toNat : Int) - 48) = ((v * 10 + (c.toNat - 48) : Nat) : Int) := by
      omega
    rw [hval]
    exact ih (fun d hd => h d (.tail c hd)) _

theorem digits_of_readNumberLoop {cs : List UInt8} : ∀ {v : Int},
    0 ≤ readNumberLoop cs v → ∀ c ∈ cs, IsDigit c := by
  induction cs with
  | nil =>
    intro v _ c hc
    cases hc
  | cons c cs ih =>
    intro v h
    rw [readNumberLoop] at h
    by_cases hc : c.toNat < 48 ∨ 57 < c.toNat
    · omega
    rw [if_neg hc] at h
    intro d hd
    rcases mem_cons.mp hd with rfl | hd
    · exact ⟨by omega, by omega⟩
    · exact ih h d hd

theorem lowDigits_succ (len val : Nat) :
    lowDigits (len + 1) val = UInt8.ofNat (48 + val % 10) :: lowDigits len (val / 10) := by
  have hzero : ∀ n, lowDigits n 0 = replicate n 48 := by
    intro n
    cases n with
    | zero => rfl
    | succ n => simp [lowDigits]
  rw [lowDigits]
  by_cases h : val / 10 = 0 ∧ val % 10 = 0
  · rw [if_pos h, h.1, h.2, hzero, replicate_succ]
    rfl
  · rw [if_neg h]

/-- The digits of a number, with zeros in front. -/
def digits (len val : Nat) : List UInt8 := (lowDigits len val).reverse

theorem digits_succ (len val : Nat) :
    digits (len + 1) val = digits len (val / 10) ++ [UInt8.ofNat (48 + val % 10)] := by
  simp [digits, lowDigits_succ]

variable {iso : List UInt8} (val : Nat) (len : Nat)

@[simp] theorem length_digits : ∀ val, (digits len val).length = len := by
  induction len with
  | zero => exact fun _ => rfl
  | succ len ih =>
    intro val
    simp [digits_succ, ih]

theorem toNat_digit : (UInt8.ofNat (48 + val % 10)).toNat = 48 + val % 10 := by
  exact Nat.mod_eq_of_lt (by omega)

theorem digits_isDigit : ∀ val, ∀ c ∈ digits len val, IsDigit c := by
  induction len with
  | zero =>
    intro val c hc
    cases hc
  | succ len ih =>
    intro val c hc
    rw [digits_succ] at hc
    rcases mem_append.mp hc with hc | hc
    · exact ih _ c hc
    · rw [mem_singleton.mp hc, IsDigit, toNat_digit]
      omega

theorem digitsValue_digits : ∀ {val : Nat}, val < 10 ^ len →
    digitsValue 0 (digits len val) = val := by
  induction len with
  | zero =>
    intro val h
    obtain rfl : val = 0 := by omega
    rfl
  | succ len ih =>
    intro val h
    have hhigh : digitsValue 0 (digits len (val / 10)) = val / 10 := ih (by omega)
    rw [digitsValue] at hhigh
    rw [digits_succ, digitsValue, foldl_append, hhigh]
    simp only [foldl_cons, foldl_nil, toNat_digit]
    omega

theorem digits_digitsValue (cs : List UInt8) : (∀ c ∈ cs, IsDigit c) →
    digits cs.length (digitsValue 0 cs) = cs ∧ digitsValue 0 cs < 10 ^ cs.length := by
  induction cs using List.reverseRecOn with
  | nil => exact fun _ => ⟨rfl, by decide⟩
  | append_singleton cs c ih =>
    intro h
    obtain ⟨hdigits, hlt⟩ := ih fun d hd => h d (mem_append_left [c] hd)
    obtain ⟨hlo, hhi⟩ := h c (mem_append_right cs (mem_singleton_self c))
    have hval : digitsValue 0 (cs ++ [c]) = digitsValue 0 cs * 10 + (c.toNat - 48) := by
      rw [digitsValue, foldl_append]
      rfl
    rw [hval, length_append, length_singleton, digits_succ, Nat.pow_succ]
    refine ⟨?_, by omega⟩
    rw [show (digitsValue 0 cs * 10 + (c.toNat - 48)) / 10 = digitsValue 0 cs by omega, hdigits,
      show 48 + (digitsValue 0 cs * 10 + (c.toNat - 48)) % 10 = c.toNat by omega,
      UInt8.ofNat_toNat]

theorem lt_of_block {as bs : List UInt8} (hlen : as.length = bs.length) (h : as < bs)
    (xs ys : List UInt8) : as ++ xs < bs ++ ys := by
  induction as generalizing bs with
  | nil =>
    obtain rfl : bs = [] := length_eq_zero_iff.mp hlen.symm
    cases h
  | cons a as ih =>
    rcases bs with _ | ⟨b, bs⟩
    · cases hlen
    rcases cons_lt_cons_iff.mp h with hab | ⟨rfl, hrest⟩
    · exact cons_lt_cons_iff.mpr (.inl hab)
    · exact cons_lt_cons_iff.mpr (.inr ⟨rfl, ih (Nat.succ.inj hlen) hrest⟩)

theorem digits_lt : ∀ {v w : Nat}, w < 10 ^ len → v < w → digits len v < digits len w := by
  induction len with
  | zero =>
    intro v w hw h
    omega
  | succ len ih =>
    intro v w hw h
    rw [digits_succ, digits_succ]
    by_cases hhigh : v / 10 < w / 10
    · exact lt_of_block (by simp) (ih (by omega) hhigh) _ _
    · rw [show v / 10 = w / 10 by omega]
      refine append_left_lt (cons_lt_cons_iff.mpr (.inl ?_))
      rw [UInt8.lt_iff_toNat_lt, toNat_digit, toNat_digit]
      omega

/-! ## Years and months -/

/-- The seconds of `n` units, the unit `i` first. -/
def unitsBefore (length : Nat → Nat) (i n : Nat) : Nat := ((range' i n).map length).sum

section
variable {length : Nat → Nat}

theorem unitsBefore_succ (i n : Nat) :
    unitsBefore length i (n + 1) = length i + unitsBefore length (i + 1) n := by
  rfl

theorem unitsBefore_succ_last (i n : Nat) :
    unitsBefore length i (n + 1) = unitsBefore length i n + length (i + n) := by
  rw [unitsBefore, range'_1_concat, map_append, sum_append]
  simp [unitsBefore]

theorem unitsBefore_le (i : Nat) {n m : Nat} (h : n < m) :
    unitsBefore length i n + length (i + n) ≤ unitsBefore length i m := by
  rw [← unitsBefore_succ_last]
  obtain ⟨k, rfl⟩ : ∃ k, m = n + 1 + k := ⟨m - (n + 1), by omega⟩
  induction k with
  | zero => rfl
  | succ k ih =>
    rw [show n + 1 + (k + 1) = n + 1 + k + 1 from rfl, unitsBefore_succ_last i (n + 1 + k)]
    exact Nat.le_trans (ih (by omega)) (Nat.le_add_right _ _)

theorem foldl_units (l : List Nat) : ∀ a : Int,
    l.foldl (fun secs i => secs + (length i : Int)) a = a + ((l.map length).sum : Nat) := by
  induction l with
  | nil => simp
  | cons i l ih =>
    intro a
    rw [foldl_cons, ih, map_cons, sum_cons]
    omega

theorem takeUnits_spec : ∀ {fuel i x j y : Nat}, takeUnits length fuel i x = some (j, y) →
    ∃ n, j = i + n ∧ y < length j ∧ x = unitsBefore length i n + y := by
  intro fuel
  induction fuel with
  | zero =>
    intro i x j y h
    cases h
  | succ fuel ih =>
    intro i x j y h
    rw [takeUnits] at h
    by_cases hx : x < length i
    · rw [if_pos hx] at h
      obtain ⟨rfl, rfl⟩ := Prod.mk.inj (some.inj h)
      exact ⟨0, rfl, hx, by simp [unitsBefore]⟩
    rw [if_neg hx] at h
    obtain ⟨n, rfl, hy, hsum⟩ := ih h
    refine ⟨n + 1, by omega, hy, ?_⟩
    rw [unitsBefore_succ]
    omega

theorem takeUnits_total : ∀ {fuel i x : Nat}, x < unitsBefore length i fuel →
    ∃ r, takeUnits length fuel i x = some r := by
  intro fuel
  induction fuel with
  | zero =>
    intro i x h
    simp [unitsBefore] at h
  | succ fuel ih =>
    intro i x h
    rw [takeUnits]
    by_cases hx : x < length i
    · exact ⟨_, if_pos hx⟩
    · rw [if_neg hx]
      rw [unitsBefore_succ] at h
      exact ih (by omega)

end

/-- The leap years before `year`, from the year one on. -/
def leapsBefore (year : Nat) : Nat := (year - 1) / 4 + (year - 1) / 400 - (year - 1) / 100

theorem yearSeconds_eq {year : Nat} (h : 1 ≤ year) :
    yearSeconds year + 86400 * leapsBefore year = 86400 * 365 + 86400 * leapsBefore (year + 1) := by
  simp only [yearSeconds, leapYear, leapsBefore]
  by_cases h4 : year % 4 = 0
  · by_cases h100 : year % 100 = 0
    · by_cases h400 : year % 400 = 0
      · simp [h4, h400]
        omega
      · simp [h100, h400]
        omega
    · simp [h4, h100]
      omega
  · simp [h4]
    omega

theorem unitsBefore_years (n : Nat) :
    unitsBefore yearSeconds 1970 n + 86400 * leapsBefore 1970 =
      86400 * 365 * n + 86400 * leapsBefore (1970 + n) := by
  induction n with
  | zero => simp [unitsBefore]
  | succ n ih =>
    have hyear := @yearSeconds_eq (1970 + n) (by omega)
    rw [unitsBefore_succ_last, show 1970 + (n + 1) = 1970 + n + 1 from rfl]
    omega

theorem unitsBefore_years_all {n : Nat} (hn : n = 8030) :
    unitsBefore yearSeconds 1970 n = 253402300800 := by
  have h := unitsBefore_years n
  rw [leapsBefore, leapsBefore] at h
  omega

theorem sum_monthSeconds (year : Nat) (l : List Nat) :
    (l.map (monthSeconds year)).sum = 86400 * (l.map (days year)).sum := by
  induction l with
  | nil => rfl
  | cons i l ih =>
    rw [map_cons, sum_cons, ih, map_cons, sum_cons, monthSeconds, Nat.mul_add]

theorem unitsBefore_months (year : Nat) :
    unitsBefore (monthSeconds year) 1 12 = yearSeconds year := by
  have hdays : ((range' 1 12).map (days year)).sum = if leapYear year then 366 else 365 := by
    simp only [range', map_cons, map_nil, days]
    cases leapYear year <;> rfl
  rw [unitsBefore, sum_monthSeconds, hdays, yearSeconds]
  split
  · rfl
  · rfl

theorem days_pos {year mon : Nat} (h : 0 < days year mon) : 1 ≤ mon ∧ mon ≤ 12 := by
  by_contra hn
  have hzero : days year mon = 0 := by
    rw [days]
    all_goals
      intro hm
      omega
  omega

theorem days_le (year mon : Nat) : days year mon ≤ 31 := by
  unfold days
  split
  all_goals first
    | omega
    | split <;> omega

/-! ## Dates -/

structure Calendar.Valid (c : Calendar) : Prop where
  year : 1970 ≤ c.year ∧ c.year ≤ 9999
  mon : 1 ≤ c.mon ∧ c.mon ≤ 12
  day : 1 ≤ c.day ∧ c.day ≤ days c.year c.mon
  hour : c.hour ≤ 23
  min : c.min ≤ 59
  sec : c.sec ≤ 59

/-- The seconds from 1970 to the beginning of a month. -/
def monthStart (year mon : Nat) : Nat :=
  unitsBefore yearSeconds 1970 (year - 1970) + unitsBefore (monthSeconds year) 1 (mon - 1)

def Calendar.seconds (c : Calendar) : Nat :=
  monthStart c.year c.mon + 86400 * (c.day - 1) + 3600 * c.hour + 60 * c.min + c.sec

theorem monthStart_succ {year mon mon' : Nat} (hmon : 1 ≤ mon) (h : mon < mon') :
    monthStart year mon + 86400 * days year mon ≤ monthStart year mon' := by
  have hle := @unitsBefore_le (monthSeconds year) 1 (mon - 1) (mon' - 1) (by omega)
  rw [show 1 + (mon - 1) = mon by omega] at hle
  simp only [monthStart, monthSeconds] at hle ⊢
  omega

section

variable {c : Calendar} (h : c.Valid)
include h

theorem Calendar.Valid.month_lt :
    c.seconds < monthStart c.year c.mon + 86400 * days c.year c.mon := by
  have := h.day
  have := h.hour
  have := h.min
  have := h.sec
  simp only [Calendar.seconds]
  omega

theorem Calendar.Valid.year_lt : c.seconds < unitsBefore yearSeconds 1970 (c.year - 1970 + 1) := by
  have hmon : monthStart c.year c.mon + 86400 * days c.year c.mon ≤ monthStart c.year 13 :=
    monthStart_succ h.mon.1 (by have := h.mon.2; omega)
  have hend : monthStart c.year 13 = unitsBefore yearSeconds 1970 (c.year - 1970 + 1) := by
    rw [monthStart, unitsBefore_months, unitsBefore_succ_last,
      show 1970 + (c.year - 1970) = c.year by have := h.year.1; omega]
  exact hend ▸ Nat.lt_of_lt_of_le h.month_lt hmon

theorem Calendar.Valid.year_le {year : Nat} (hlt : c.year < year) :
    c.seconds < unitsBefore yearSeconds 1970 (year - 1970) := by
  have hyear := h.year.1
  have hle : unitsBefore yearSeconds 1970 (c.year - 1970 + 1) ≤
      unitsBefore yearSeconds 1970 (year - 1970) := by
    by_cases heq : c.year - 1970 + 1 = year - 1970
    · rw [heq]
    · exact Nat.le_trans (Nat.le_add_right _ _) (unitsBefore_le 1970 (by omega))
  exact Nat.lt_of_lt_of_le h.year_lt hle

theorem Calendar.Valid.seconds_le : c.seconds ≤ 253402300799 := by
  have hlt := @year_le c h 10000 (by have := h.year.2; omega)
  rw [unitsBefore_years_all rfl] at hlt
  omega

end

/-- The date and the time of day, from the year, the month and the seconds that
are left. -/
def Calendar.ofRest (year mon left : Nat) : Calendar :=
  ⟨year, mon, left / 86400 + 1, left % 86400 / 3600, left % 86400 % 3600 / 60,
    left % 86400 % 3600 % 60⟩

theorem takeUnits_date {fuel seconds : Nat} (hfuel : 8030 ≤ fuel)
    (h : seconds ≤ 253402300799) :
    ∃ year rest mon left, takeUnits yearSeconds fuel 1970 seconds = some (year, rest) ∧
      takeUnits (monthSeconds year) fuel 1 rest = some (mon, left) ∧
        (Calendar.ofRest year mon left).Valid ∧
          (Calendar.ofRest year mon left).seconds = seconds ∧
            seconds = unitsBefore yearSeconds 1970 (year - 1970) + rest := by
  have hall : unitsBefore yearSeconds 1970 8030 ≤ unitsBefore yearSeconds 1970 fuel := by
    rcases Nat.eq_or_lt_of_le hfuel with heq | hlt
    · rw [heq]
    · exact Nat.le_trans (Nat.le_add_right _ _) (unitsBefore_le 1970 hlt)
  rw [unitsBefore_years_all rfl] at hall
  obtain ⟨⟨year, rest⟩, hyears⟩ := @takeUnits_total yearSeconds fuel 1970 seconds (by omega)
  obtain ⟨n, rfl, hrest, hsum⟩ := takeUnits_spec hyears
  have hmonths12 : rest < unitsBefore (monthSeconds (1970 + n)) 1 12 := by
    rwa [unitsBefore_months]
  have hmonthsAll : unitsBefore (monthSeconds (1970 + n)) 1 12 ≤
      unitsBefore (monthSeconds (1970 + n)) 1 fuel :=
    Nat.le_trans (Nat.le_add_right _ _) (unitsBefore_le 1 (by omega))
  obtain ⟨⟨mon, left⟩, hmonths⟩ :=
    @takeUnits_total (monthSeconds (1970 + n)) fuel 1 rest (by omega)
  obtain ⟨m, rfl, hleft, hmsum⟩ := takeUnits_spec hmonths
  have hday : left < 86400 * days (1970 + n) (1 + m) := hleft
  have hmon := @days_pos (1970 + n) (1 + m) (by omega)
  have hyear : n < 8030 := by
    by_contra hn
    have hle : unitsBefore yearSeconds 1970 8030 ≤ unitsBefore yearSeconds 1970 n := by
      rcases Nat.eq_or_lt_of_le (Nat.le_of_not_lt hn) with heq | hlt
      · rw [heq]
      · exact Nat.le_trans (Nat.le_add_right _ _) (unitsBefore_le 1970 hlt)
    rw [unitsBefore_years_all rfl] at hle
    omega
  refine ⟨1970 + n, rest, 1 + m, left, hyears, hmonths,
    ⟨⟨Nat.le_add_right _ _, ?_⟩, hmon, ⟨Nat.le_add_left _ _, ?_⟩, ?_, ?_, ?_⟩, ?_, ?_⟩
  · exact (by omega : 1970 + n ≤ 9999)
  · exact (by omega : left / 86400 + 1 ≤ days (1970 + n) (1 + m))
  · exact (by omega : left % 86400 / 3600 ≤ 23)
  · exact (by omega : left % 86400 % 3600 / 60 ≤ 59)
  · exact (by omega : left % 86400 % 3600 % 60 ≤ 59)
  · simp only [Calendar.seconds, Calendar.ofRest, monthStart, Nat.add_sub_cancel_left]
    omega
  · rw [Nat.add_sub_cancel_left, hsum]

/-- The last second of the year 9999 is the one before the year 10000. -/
theorem Calendar.seconds_last {c : Calendar} (hyear : c.year = 9999) (hmon : c.mon = 12)
    (hday : c.day = 31) (hhour : c.hour = 23) (hmin : c.min = 59) (hsec : c.sec = 59) :
    c.seconds = 253402300799 := by
  have hyears := @unitsBefore_succ_last yearSeconds 1970 (c.year - 1970)
  have hmonths := @unitsBefore_succ_last (monthSeconds c.year) 1 (c.mon - 1)
  have hdec : monthSeconds c.year (1 + (c.mon - 1)) = 86400 * 31 := by rw [hyear, hmon]; rfl
  rw [unitsBefore_years_all (by omega), show 1970 + (c.year - 1970) = c.year by omega] at hyears
  rw [show c.mon - 1 + 1 = 12 by omega, unitsBefore_months, hdec] at hmonths
  rw [Calendar.seconds, monthStart]
  omega

theorem calendarOf_spec {fuel seconds : Nat} (hfuel : 8030 ≤ fuel)
    (h : seconds ≤ 253402300799) :
    ∃ c, calendarOf fuel seconds = some c ∧ c.Valid ∧ c.seconds = seconds := by
  by_cases hlast : seconds < 253402300799
  · obtain ⟨year, rest, mon, left, hyears, hmonths, hvalid, hseconds, -⟩ := takeUnits_date hfuel h
    refine ⟨_, ?_, hvalid, hseconds⟩
    rw [calendarOf, if_pos hlast, hyears]
    simp only [hmonths]
    rfl
  have hvalid : Calendar.Valid ⟨9999, 12, 31, 23, 59, 59⟩ :=
    ⟨by decide, by decide, by decide, by decide, by decide, by decide⟩
  refine ⟨_, if_neg hlast, hvalid, ?_⟩
  rw [Calendar.seconds_last rfl rfl rfl rfl rfl rfl]
  omega

theorem calendarOf_saturates {fuel seconds : Nat} (h : 253402300799 ≤ seconds) :
    calendarOf fuel seconds = some ⟨9999, 12, 31, 23, 59, 59⟩ := if_neg (by omega)

/-! ## Texts -/

theorem readNumber_digits {i len val : Nat} (h : (iso.drop i).take len = digits len val)
    (hval : val < 10 ^ len) : readNumber iso i len = val := by
  have hread := readNumberLoop_digits (digits_isDigit len val) 0
  rw [digitsValue_digits len hval] at hread
  rwa [readNumber, h]

theorem Calendar.text_eq (c : Calendar) :
    c.text = digits 4 c.year ++ 45 :: (digits 2 c.mon ++ 45 :: (digits 2 c.day ++
      84 :: (digits 2 c.hour ++ 58 :: (digits 2 c.min ++ 58 :: digits 2 c.sec)))) := by
  rfl

theorem Calendar.Valid.fits {c : Calendar} (h : c.Valid) :
    c.year < 10 ^ 4 ∧ c.mon < 10 ^ 2 ∧ c.day < 10 ^ 2 ∧ c.hour < 10 ^ 2 ∧ c.min < 10 ^ 2 ∧
      c.sec < 10 ^ 2 := by
  have := h.year.2
  have := h.mon.2
  have := h.day.2
  have := days_le c.year c.mon
  have := h.hour
  have := h.min
  have := h.sec
  omega

theorem digits_two : digits 2 val =
    [UInt8.ofNat (48 + val / 10 % 10), UInt8.ofNat (48 + val % 10)] := by
  rw [digits_succ, digits_succ]
  rfl

theorem digits_four : digits 4 val =
    [UInt8.ofNat (48 + val / 10 / 10 / 10 % 10), UInt8.ofNat (48 + val / 10 / 10 % 10),
      UInt8.ofNat (48 + val / 10 % 10), UInt8.ofNat (48 + val % 10)] := by
  rw [digits_succ, digits_succ, digits_succ, digits_succ]
  rfl

theorem epochSeconds_sum {iso : List UInt8} {c : Calendar} (h : c.Valid)
    (hsep : iso.getD 4 0 = 45 ∧ iso.getD 7 0 = 45 ∧ iso.getD 10 0 = 84 ∧ iso.getD 13 0 = 58 ∧
      iso.getD 16 0 = 58)
    (hyear : readNumber iso 0 4 = c.year) (hmon : readNumber iso 5 2 = c.mon)
    (hday : readNumber iso 8 2 = c.day) (hhour : readNumber iso 11 2 = c.hour)
    (hmin : readNumber iso 14 2 = c.min) (hsec : readNumber iso 17 2 = c.sec) :
    epochSeconds iso = c.seconds := by
  obtain ⟨h4, h7, h10, h13, h16⟩ := hsep
  have h1 := h.year
  have h2 := h.mon
  have h3 := h.day
  have h5 := h.hour
  have h6 := h.min
  have h8 := h.sec
  have hle := days_le c.year c.mon
  rw [epochSeconds, if_neg (by simp only [h4, h7]; decide), if_neg (by simp only [h10]; decide),
    if_neg (by simp only [h13, h16]; decide)]
  simp only [hyear, hmon, Int.toNat_natCast, foldl_units]
  simp only [Calendar.seconds, monthStart, unitsBefore]
  omega

theorem Calendar.Valid.epochSeconds_text {c : Calendar} (h : c.Valid) :
    epochSeconds c.text = c.seconds := by
  obtain ⟨hy, hmo, hd, hh, hmi, hs⟩ := h.fits
  have htext := c.text_eq
  simp only [digits_two, digits_four] at htext
  refine epochSeconds_sum h ?_ (readNumber_digits ?_ hy) (readNumber_digits ?_ hmo)
    (readNumber_digits ?_ hd) (readNumber_digits ?_ hh) (readNumber_digits ?_ hmi)
    (readNumber_digits ?_ hs)
  · rw [htext]
    exact ⟨rfl, rfl, rfl, rfl, rfl⟩
  · rw [htext, digits_four]
    rfl
  all_goals
    rw [htext, digits_two]
    rfl

theorem digits_of_readNumber {i len : Nat} (hlen : i + len ≤ iso.length)
    (h : 0 ≤ readNumber iso i len) :
    digits len (readNumber iso i len).toNat = (iso.drop i).take len ∧
      (readNumber iso i len).toNat < 10 ^ len := by
  have hall := digits_of_readNumberLoop h
  have hval := readNumberLoop_digits hall 0
  have hlength : ((iso.drop i).take len).length = len := by
    rw [length_take, length_drop]
    omega
  have hdigits := digits_digitsValue _ hall
  rw [hlength] at hdigits
  have hnat : (readNumber iso i len).toNat = digitsValue 0 ((iso.drop i).take len) := by
    rw [readNumber]
    rw [show ((0 : Nat) : Int) = 0 from rfl] at hval
    rw [hval, Int.toNat_natCast]
  rwa [hnat]

theorem text_split (h : iso.length = 19) :
    iso = (iso.drop 0).take 4 ++ iso.getD 4 0 :: ((iso.drop 5).take 2 ++ iso.getD 7 0 ::
      ((iso.drop 8).take 2 ++ iso.getD 10 0 :: ((iso.drop 11).take 2 ++ iso.getD 13 0 ::
        ((iso.drop 14).take 2 ++ iso.getD 16 0 :: (iso.drop 17).take 2)))) := by
  match iso, h with
  | [_, _, _, _, _, _, _, _, _, _, _, _, _, _, _, _, _, _, _], _ => rfl

theorem text_of_epochSeconds {iso : List UInt8} (hlen : iso.length = 19)
    (h : epochSeconds iso ≠ unknownFormat) :
    ∃ c : Calendar, c.Valid ∧ iso = c.text ∧ epochSeconds iso = c.seconds := by
  have hdef := h
  rw [epochSeconds] at hdef
  by_cases h1 : iso.getD 4 0 ≠ 45 ∨ iso.getD 7 0 ≠ 45
  · exact absurd (if_pos h1) hdef
  rw [if_neg h1] at hdef
  by_cases h2 : iso.getD 10 0 ≠ 84
  · exact absurd (if_pos h2) hdef
  rw [if_neg h2] at hdef
  by_cases h3 : iso.getD 13 0 ≠ 58 ∨ iso.getD 16 0 ≠ 58
  · exact absurd (if_pos h3) hdef
  rw [if_neg h3] at hdef
  have hyear := @digits_of_readNumber iso 0 4 (by omega)
  have hmon := @digits_of_readNumber iso 5 2 (by omega)
  have hday := @digits_of_readNumber iso 8 2 (by omega)
  have hhour := @digits_of_readNumber iso 11 2 (by omega)
  have hmin := @digits_of_readNumber iso 14 2 (by omega)
  have hsec := @digits_of_readNumber iso 17 2 (by omega)
  have hseps : iso.getD 4 0 = 45 ∧ iso.getD 7 0 = 45 ∧ iso.getD 10 0 = 84 ∧ iso.getD 13 0 = 58 ∧
      iso.getD 16 0 = 58 :=
    ⟨not_not.mp (not_or.mp h1).1, not_not.mp (not_or.mp h1).2, not_not.mp h2,
      not_not.mp (not_or.mp h3).1, not_not.mp (not_or.mp h3).2⟩
  have hsum := @epochSeconds_sum iso
  have hsplit := text_split hlen
  generalize readNumber iso 0 4 = year at hdef hyear hsum
  generalize readNumber iso 5 2 = mon at hdef hmon hsum
  generalize readNumber iso 8 2 = day at hdef hday hsum
  generalize readNumber iso 11 2 = hour at hdef hhour hsum
  generalize readNumber iso 14 2 = min at hdef hmin hsum
  generalize readNumber iso 17 2 = sec at hdef hsec hsum
  by_cases h4 : ¬ (1 ≤ mon ∧ mon ≤ 12) ∨ ¬ (1 ≤ day ∧ day ≤ 31) ∨ ¬ (0 ≤ hour ∧ hour ≤ 23) ∨
      ¬ (0 ≤ min ∧ min ≤ 59) ∨ ¬ (0 ≤ sec ∧ sec ≤ 59) ∨ year < 1970
  · exact absurd (if_pos h4) hdef
  rw [if_neg h4] at hdef
  by_cases h5 : (days year.toNat mon.toNat : Int) < day
  · omega
  obtain ⟨hyear, hyearlt⟩ := hyear (by omega)
  obtain ⟨hmon, -⟩ := hmon (by omega)
  obtain ⟨hday, -⟩ := hday (by omega)
  obtain ⟨hhour, -⟩ := hhour (by omega)
  obtain ⟨hmin, -⟩ := hmin (by omega)
  obtain ⟨hsec, -⟩ := hsec (by omega)
  have hvalid : Calendar.Valid
      ⟨year.toNat, mon.toNat, day.toNat, hour.toNat, min.toNat, sec.toNat⟩ :=
    ⟨⟨(by omega : 1970 ≤ year.toNat), (by omega : year.toNat ≤ 9999)⟩,
      ⟨(by omega : 1 ≤ mon.toNat), (by omega : mon.toNat ≤ 12)⟩,
      ⟨(by omega : 1 ≤ day.toNat), (by omega : day.toNat ≤ days year.toNat mon.toNat)⟩,
      (by omega : hour.toNat ≤ 23), (by omega : min.toNat ≤ 59), (by omega : sec.toNat ≤ 59)⟩
  refine ⟨_, hvalid, ?_, hsum hvalid hseps ?_ ?_ ?_ ?_ ?_ ?_⟩
  · obtain ⟨h4, h7, h10, h13, h16⟩ := hseps
    rw [Calendar.text_eq]
    simp only [hyear, hmon, hday, hhour, hmin, hsec]
    rw [h4, h7, h10, h13, h16] at hsplit
    exact hsplit
  all_goals exact (Int.toNat_of_nonneg (by omega)).symm

/-! ## The order of dates -/

def Calendar.Before (c d : Calendar) : Prop :=
  c.year < d.year ∨ c.year = d.year ∧ (c.mon < d.mon ∨ c.mon = d.mon ∧
    (c.day < d.day ∨ c.day = d.day ∧ (c.hour < d.hour ∨ c.hour = d.hour ∧
      (c.min < d.min ∨ c.min = d.min ∧ c.sec < d.sec))))

theorem Calendar.before_total (c d : Calendar) : c = d ∨ c.Before d ∨ d.Before c := by
  rcases c with ⟨year, mon, day, hour, min, sec⟩
  rcases d with ⟨year', mon', day', hour', min', sec'⟩
  simp only [Calendar.Before, Calendar.mk.injEq]
  omega

theorem Calendar.Before.seconds_lt {c d : Calendar} (h : c.Before d) (hc : c.Valid) :
    c.seconds < d.seconds := by
  rcases h with hyear | ⟨hyear, h⟩
  · have hlt := hc.year_le hyear
    have hge : unitsBefore yearSeconds 1970 (d.year - 1970) ≤ d.seconds := by
      simp only [Calendar.seconds, monthStart]
      omega
    omega
  have hclt := hc.month_lt
  have hstart := @monthStart_succ d.year c.mon d.mon hc.mon.1
  have := hc.day
  have := hc.hour
  have := hc.min
  have := hc.sec
  simp only [hyear, Calendar.seconds] at hclt ⊢
  rcases h with hmon | ⟨hmon, h⟩
  · omega
  · rw [hmon]
    omega

theorem Calendar.Before.text_lt {c d : Calendar} (h : c.Before d) (hd : d.Valid) :
    c.text < d.text := by
  obtain ⟨hy, hmo, hda, hh, hmi, hs⟩ := hd.fits
  have field : ∀ {len v w : Nat} {xs ys : List UInt8} (sep : UInt8), w < 10 ^ len →
      (v < w ∨ v = w ∧ xs < ys) → digits len v ++ sep :: xs < digits len w ++ sep :: ys := by
    rintro len v w xs ys sep hw (hlt | ⟨rfl, hrest⟩)
    · exact lt_of_block (by simp) (digits_lt len hw hlt) _ _
    · exact append_left_lt (cons_lt_cons_iff.mpr (.inr ⟨rfl, hrest⟩))
  refine field 45 hy (h.imp_right fun h => ⟨h.1, ?_⟩)
  refine field 45 hmo (h.2.imp_right fun h => ⟨h.1, ?_⟩)
  refine field 84 hda (h.2.imp_right fun h => ⟨h.1, ?_⟩)
  refine field 58 hh (h.2.imp_right fun h => ⟨h.1, ?_⟩)
  exact field 58 hmi (h.2.imp_right fun h => ⟨h.1, digits_lt 2 hs h.2⟩)

theorem Calendar.Valid.text_lt {c d : Calendar} (hd : d.Valid) (h : c.seconds < d.seconds) :
    c.text < d.text := by
  rcases c.before_total d with rfl | hcd | hdc
  · omega
  · exact hcd.text_lt hd
  · exact absurd (hdc.seconds_lt hd) (Nat.lt_asymm h)

theorem Calendar.Valid.eq_of_seconds {c d : Calendar} (hc : c.Valid) (hd : d.Valid)
    (h : c.seconds = d.seconds) : c = d := by
  rcases c.before_total d with rfl | hcd | hdc
  · rfl
  · have := hcd.seconds_lt hc
    omega
  · have := hdc.seconds_lt hd
    omega

/-- Every second behind the year 9999 has the text of its last second. -/
theorem epochConvert_constant : ¬ ∀ s t : Nat, s < t → t < 2 ^ 64 →
    ∃ x y, epochConvert 8030 s = some x ∧ epochConvert 8030 t = some y ∧ x < y := by
  intro h
  obtain ⟨x, y, hx, hy, hlt⟩ := h 253402300799 253402300800 (by decide) (by decide)
  rw [epochConvert, calendarOf_saturates le_rfl] at hx
  rw [epochConvert, calendarOf_saturates (by decide)] at hy
  obtain rfl := some.inj hx
  obtain rfl := some.inj hy
  exact List.lt_irrefl _ hlt

/-- The loops of `epoch_convert` end, `epoch_seconds` inverts it, it inverts
`epoch_seconds`, later seconds have larger texts up to the end of the year
9999, and all seconds behind it have the last text. -/
theorem epoch_roundTrip (fuel : Nat) (hfuel : 8030 ≤ fuel) :
    (∀ s ≤ 253402300799, ∃ t, epochConvert fuel s = some t ∧ epochSeconds t = s) ∧
    (∀ t : List UInt8, t.length = 19 → epochSeconds t ≠ unknownFormat →
      ∃ s : Nat, epochSeconds t = s ∧ epochConvert fuel s = some t) ∧
    (∀ s s', s < s' → s' ≤ 253402300799 →
      ∃ t t', epochConvert fuel s = some t ∧ epochConvert fuel s' = some t' ∧ t < t') ∧
    (∀ s, 253402300799 ≤ s → epochConvert fuel s = epochConvert fuel 253402300799) := by
  refine ⟨?_, ?_, ?_, ?_⟩
  · intro s hs
    obtain ⟨c, hc, hvalid, hsec⟩ := calendarOf_spec hfuel hs
    exact ⟨c.text, by rw [epochConvert, hc]; rfl, by rw [hvalid.epochSeconds_text, hsec]⟩
  · intro t hlen ht
    obtain ⟨c, hvalid, rfl, hsec⟩ := text_of_epochSeconds hlen ht
    refine ⟨c.seconds, hsec, ?_⟩
    obtain ⟨d, hd, hdvalid, hdsec⟩ := calendarOf_spec hfuel hvalid.seconds_le
    rw [epochConvert, hd, Option.map_some, hdvalid.eq_of_seconds hvalid hdsec]
  · intro s s' hlt hs'
    obtain ⟨c, hc, hvalid, hsec⟩ := @calendarOf_spec fuel s hfuel (by omega)
    obtain ⟨d, hd, hdvalid, hdsec⟩ := calendarOf_spec hfuel hs'
    refine ⟨c.text, d.text, by rw [epochConvert, hc]; rfl, by rw [epochConvert, hd]; rfl, ?_⟩
    exact hdvalid.text_lt (by omega)
  · intro s hs
    rw [epochConvert, epochConvert, calendarOf_saturates hs, calendarOf_saturates le_rfl]

/-- The last second of a leap day, and the first one of March. -/
theorem epoch_roundTrip_leap : ∃ t t', epochConvert 8030 68255999 = some t ∧
    epochConvert 8030 68256000 = some t' ∧ t < t' :=
  (epoch_roundTrip 8030 le_rfl).2.2.1 _ _ (by decide) (by decide)

end Dancy.Common
