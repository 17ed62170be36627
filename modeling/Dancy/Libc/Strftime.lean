import Dancy.Lib.Bytes
import Dancy.Libc.FormatAgrees
import Dancy.Libc.Mktime

/-!
# `strftime` (`strftime.c`)

The pieces of the text are stored one after another; once one does not fit, the
text stays empty. The standard fixes the text of each specifier in the C
locale, where the modifiers mean nothing.
-/

namespace Dancy.Libc.Strftime

open Dancy.Lib Format List Function

/-- The conversion specifiers that are supported. -/
inductive Conv where
  | percent | a | A | b | h | B | c | C | d | D | e | F | H | I | j | m | M | n | p | r | R | S
  | t | T | u | w | x | X | y | Y | z | Z
deriving DecidableEq

def Conv.char : Conv → UInt8
  | .percent => ch '%' | .a => ch 'a' | .A => ch 'A' | .b => ch 'b' | .h => ch 'h' | .B => ch 'B'
  | .c => ch 'c' | .C => ch 'C' | .d => ch 'd' | .D => ch 'D' | .e => ch 'e' | .F => ch 'F'
  | .H => ch 'H' | .I => ch 'I' | .j => ch 'j' | .m => ch 'm' | .M => ch 'M' | .n => ch 'n'
  | .p => ch 'p' | .r => ch 'r' | .R => ch 'R' | .S => ch 'S' | .t => ch 't' | .T => ch 'T'
  | .u => ch 'u' | .w => ch 'w' | .x => ch 'x' | .X => ch 'X' | .y => ch 'y' | .Y => ch 'Y'
  | .z => ch 'z' | .Z => ch 'Z'

def Conv.all : List Conv :=
  [.percent, .a, .A, .b, .h, .B, .c, .C, .d, .D, .e, .F, .H, .I, .j, .m, .M, .n, .p, .r, .R, .S, .t,
    .T, .u, .w, .x, .X, .y, .Y, .z, .Z]

/-- The comparisons of `c`, in their order. -/
def Conv.ofChar (c : UInt8) : Option Conv := Conv.all.find? (·.char = c)

def str (s : String) : List UInt8 := s.toList.map ch

def days : List (String × String) :=
  [("Sun", "Sunday"), ("Mon", "Monday"), ("Tue", "Tuesday"), ("Wed", "Wednesday"),
    ("Thu", "Thursday"), ("Fri", "Friday"), ("Sat", "Saturday")]

def months : List (String × String) :=
  [("Jan", "January"), ("Feb", "February"), ("Mar", "March"), ("Apr", "April"), ("May", "May"),
    ("Jun", "June"), ("Jul", "July"), ("Aug", "August"), ("Sep", "September"), ("Oct", "October"),
    ("Nov", "November"), ("Dec", "December")]

/-! ## The code -/

/-- `days[timeptr->tm_wday & 7]`, empty where the names are `NULL`. -/
def dayRecord (tm : Tm) : String × String := days.getD (tm.wday % 8).toNat ("", "")

def monthRecord (tm : Tm) : String × String := months.getD (tm.mon % 16).toNat ("", "")

/-- The field of `%2d`, or of `%02d` if `zero`. -/
def field (zero : Bool) (width : Nat) : Field := ⟨⟨false, false, false, zero, false⟩, width, none⟩

/-- What `snprintf` makes of an `int`. -/
def int (zero : Bool) (width : Nat) (v : Int) : List UInt8 := (field zero width).signed v

/-- What of it fits in `buffer`. -/
def buffer (text : List UInt8) : List UInt8 := text.take 31

def clock12 (tm : Tm) : Int :=
  if tm.hour ≠ 0 ∧ tm.hour ≠ 12 then tm.hour.tmod 12 else 12

def amPm (tm : Tm) : List UInt8 := if tm.hour < 12 then str "AM" else str "PM"

/-- `"%02d:%02d:%02d"` -/
def hms (tm : Tm) : List UInt8 :=
  int true 2 tm.hour ++ str ":" ++ int true 2 tm.min ++ str ":" ++ int true 2 tm.sec

/-- `"%02d/%02d/%02d"` -/
def mdy (tm : Tm) : List UInt8 :=
  int true 2 (tm.mon + 1) ++ str "/" ++ int true 2 tm.mday ++ str "/" ++
    int true 2 (tm.year.tmod 100)

def convert (tm : Tm) : Conv → List UInt8
  | .percent => str "%"
  | .a => str (dayRecord tm).1
  | .A => str (dayRecord tm).2
  | .b | .h => str (monthRecord tm).1
  | .B => str (monthRecord tm).2
  | .c => buffer (str (dayRecord tm).1 ++ str " " ++ str (monthRecord tm).1 ++ str " " ++
      int false 2 tm.mday ++ str " " ++ hms tm ++ str " " ++ int true 4 (tm.year + 1900))
  | .C => buffer (int true 2 ((tm.year + 1900).tdiv 100))
  | .d => buffer (int true 2 tm.mday)
  | .D | .x => buffer (mdy tm)
  | .e => buffer (int false 2 tm.mday)
  | .F => buffer (int true 4 (tm.year + 1900) ++ str "-" ++ int true 2 (tm.mon + 1) ++ str "-" ++
      int true 2 tm.mday)
  | .H => buffer (int true 2 tm.hour)
  | .I => buffer (int true 2 (clock12 tm))
  | .j => buffer (int true 3 (tm.yday + 1))
  | .m => buffer (int true 2 (tm.mon + 1))
  | .M => buffer (int true 2 tm.min)
  | .n => [10]
  | .p => amPm tm
  | .r => buffer (int true 2 (clock12 tm) ++ str ":" ++ int true 2 tm.min ++ str ":" ++
      int true 2 tm.sec ++ str " " ++ amPm tm)
  | .R => buffer (int true 2 tm.hour ++ str ":" ++ int true 2 tm.min)
  | .S => buffer (int true 2 tm.sec)
  | .t => [9]
  | .T | .X => buffer (hms tm)
  | .u => buffer (int false 0 (if tm.wday ≠ 0 then tm.wday else 7))
  | .w => buffer (int false 0 tm.wday)
  | .y => buffer (int true 2 (tm.year.tmod 100))
  | .Y => buffer (int true 4 (tm.year + 1900))
  | .z => str "+0000"
  | .Z => []

/-- `write_output`, with `s` and `*out`; the zero of `data` is behind it. -/
def writeOutput (size : Nat) : Bytes × Nat → List UInt8 → Bytes × Nat
  | (s, out), [] =>
    if size ≤ out then (update s 0 0, out) else (update s out 0, out)
  | (s, out), c :: data =>
    if size ≤ out then (update s 0 0, out)
    else writeOutput size (update s out c, out + 1) data

def strlen (s : Bytes) : (fuel p : Nat) → Nat
  | 0, _ => 0
  | fuel + 1, p => if s p = 0 then 0 else strlen s fuel (p + 1) + 1

/-- The loop over the format, before a character and behind a `%`; `none` is
the `exit`. -/
def formatLoop (size : Nat) (tm : Tm) : Bool → List UInt8 → Bytes × Nat → Option Bytes
  | _, [], st => some st.1
  | false, c :: format, st =>
    if c ≠ ch '%' then formatLoop size tm false format (writeOutput size st [c])
    else formatLoop size tm true format st
  | true, c :: format, st =>
    if c = ch 'E' ∨ c = ch '0' then formatLoop size tm true format st
    else match Conv.ofChar c with
      | none => none
      | some conv => formatLoop size tm false format (writeOutput size st (convert tm conv))

/-- `strftime`: what it returns, and the buffer. -/
def strftime (s : Bytes) (size : Nat) (format : List UInt8) (tm : Tm) : Option (Nat × Bytes) :=
  if size = 0 then some (0, s)
  else (formatLoop size tm false format (update s 0 0, 0)).map fun s =>
    (strlen s size 0, s)

/-! ## The standard -/

inductive Modifier where
  | E
  | O

/-- An ordinary character, or a specifier with its modifier. -/
inductive Item where
  | char (c : {c : UInt8 // c ≠ 0 ∧ c ≠ ch '%'})
  | spec (modifier : Option Modifier) (conv : Conv)

def Item.chars : Item → List UInt8
  | .char c => [c.val]
  | .spec none conv => [ch '%', conv.char]
  | .spec (some .E) conv => [ch '%', ch 'E', conv.char]
  | .spec (some .O) conv => [ch '%', ch 'O', conv.char]

/-- The fields are in their ranges, and the year has up to four digits. -/
structure Normalized (tm : Tm) : Prop where
  sec : 0 ≤ tm.sec ∧ tm.sec ≤ 60
  min : 0 ≤ tm.min ∧ tm.min ≤ 59
  hour : 0 ≤ tm.hour ∧ tm.hour ≤ 23
  mday : 1 ≤ tm.mday ∧ tm.mday ≤ 31
  mon : 0 ≤ tm.mon ∧ tm.mon ≤ 11
  wday : 0 ≤ tm.wday ∧ tm.wday ≤ 6
  yday : 0 ≤ tm.yday ∧ tm.yday ≤ 365
  year : 0 ≤ tm.year + 1900 ∧ tm.year + 1900 ≤ 9999

/-- A decimal number of at least so many digits. -/
def decimal (digits : Nat) (v : Int) : List UInt8 := (field true digits).unsigned v.toNat

/-- The day of the month, a single digit after a space. -/
def blankDay (tm : Tm) : List UInt8 := (field false 2).unsigned tm.mday.toNat

def hour12 (tm : Tm) : List UInt8 := decimal 2 ((tm.hour + 11) % 12 + 1)

/-- `%H:%M` -/
def hourMin (tm : Tm) : List UInt8 := decimal 2 tm.hour ++ str ":" ++ decimal 2 tm.min

/-- `%m/%d/%y` -/
def date (tm : Tm) : List UInt8 :=
  decimal 2 (tm.mon + 1) ++ str "/" ++ decimal 2 tm.mday ++ str "/" ++
    decimal 2 ((tm.year + 1900) % 100)

/-- The text of a specifier in the C locale; the year is that of a date by
ISO 8601, and the time zone is UTC. -/
def standard (tm : Tm) : Conv → List UInt8
  | .percent => str "%"
  | .a => str (days.getD tm.wday.toNat ("", "")).1
  | .A => str (days.getD tm.wday.toNat ("", "")).2
  | .b | .h => str (months.getD tm.mon.toNat ("", "")).1
  | .B => str (months.getD tm.mon.toNat ("", "")).2
  | .c => str (days.getD tm.wday.toNat ("", "")).1 ++ str " " ++
      str (months.getD tm.mon.toNat ("", "")).1 ++ str " " ++ blankDay tm ++ str " " ++
      (hourMin tm ++ str ":" ++ decimal 2 tm.sec) ++ str " " ++ decimal 4 (tm.year + 1900)
  | .C => decimal 2 ((tm.year + 1900) / 100)
  | .d => decimal 2 tm.mday
  | .D | .x => date tm
  | .e => blankDay tm
  | .F => decimal 4 (tm.year + 1900) ++ str "-" ++ decimal 2 (tm.mon + 1) ++ str "-" ++
      decimal 2 tm.mday
  | .H => decimal 2 tm.hour
  | .I => hour12 tm
  | .j => decimal 3 (tm.yday + 1)
  | .m => decimal 2 (tm.mon + 1)
  | .M => decimal 2 tm.min
  | .n => [10]
  | .p => if tm.hour < 12 then str "AM" else str "PM"
  | .r => hour12 tm ++ str ":" ++ decimal 2 tm.min ++ str ":" ++ decimal 2 tm.sec ++ str " " ++
      if tm.hour < 12 then str "AM" else str "PM"
  | .R => hourMin tm
  | .S => decimal 2 tm.sec
  | .t => [9]
  | .T | .X => hourMin tm ++ str ":" ++ decimal 2 tm.sec
  | .u => decimal 1 ((tm.wday + 6) % 7 + 1)
  | .w => decimal 1 tm.wday
  | .y => decimal 2 ((tm.year + 1900) % 100)
  | .Y => decimal 4 (tm.year + 1900)
  | .z => str "+0000"
  | .Z => []

def Item.text (f : Conv → List UInt8) : Item → List UInt8
  | .char c => [c.val]
  | .spec _ conv => f conv

def text (f : Conv → List UInt8) (items : List Item) : List UInt8 := items.flatMap (Item.text f)

def Item.isO : Item → Bool
  | .spec (some .O) _ => true
  | _ => false

def Item.shortYear : Item → Bool
  | .spec _ .D | .spec _ .x | .spec _ .y => true
  | _ => false

/-- A year before 1900 that is not the first of its century. -/
def Slip (tm : Tm) : Prop := tm.year < 0 ∧ tm.year % 100 ≠ 0

/-- What is returned and stored for the text `l`. -/
def Result (s : Bytes) (size : Nat) (l : List UInt8) (r : Option (Nat × Bytes)) : Prop :=
  ∃ s', r = some (if l.length < size then l.length else 0, s') ∧ (∀ k, size ≤ k → s' k = s k) ∧
    (l.length < size → ∀ i ≤ l.length, s' i = l.getD i 0)

def Right (s : Bytes) (size : Nat) (items : List Item) (tm : Tm) : Prop :=
  Result s size (text (standard tm) items) (strftime s size (items.flatMap Item.chars) tm)

variable {s s0 : Bytes} {size : Nat} {tm : Tm} {items : List Item} {l data : List UInt8}
  {st : Bytes × Nat} {v : Int} {conv : Conv}

/-- The buffer after the text `l`: beyond `size` it is the buffer before. -/
structure Stored (s0 : Bytes) (size : Nat) (l : List UInt8) (st : Bytes × Nat) : Prop where
  frame : ∀ k, size ≤ k → st.1 k = s0 k
  fits : l.length < size → st.2 = l.length ∧ ∀ i ≤ l.length, st.1 i = l.getD i 0
  full : size ≤ l.length → st.2 = size ∧ st.1 0 = 0

/-- An overflow stays: the first byte is zero, and so is every further piece. -/
theorem stored_full (hsize : 0 < size) (hframe : ∀ k, size ≤ k → s k = s0 k)
    (hl : size ≤ l.length) : Stored s0 size l (update s 0 0, size) := by
  refine ⟨fun k hk => ?_, fun h => by omega, fun _ => ⟨rfl, by simp⟩⟩
  rw [← hframe k hk]
  exact Function.update_of_ne (by omega) _ _

theorem writeOutput_room (hsize : 0 < size) : ∀ {data l : List UInt8} {s : Bytes},
    (∀ k, size ≤ k → s k = s0 k) → l.length ≤ size → (∀ i < l.length, s i = l.getD i 0) →
      Stored s0 size (l ++ data) (writeOutput size (s, l.length) data) := by
  intro data
  induction data with
  | nil =>
    intro l s hframe hl hchars
    rw [append_nil, writeOutput]
    split_ifs with hout
    · rw [show l.length = size by omega]
      exact stored_full hsize hframe hout
    refine ⟨fun k hk => ?_, fun _ => ⟨rfl, fun i hi => ?_⟩, fun h => by omega⟩ <;> dsimp only
    · rw [Function.update_of_ne (by omega), hframe k hk]
    · by_cases heq : i = l.length
      · simp [heq]
      · rw [Function.update_of_ne heq, hchars i (by omega)]
  | cons c data ih =>
    intro l s hframe hl hchars
    rw [writeOutput]
    split_ifs with hout
    · rw [show l.length = size by omega]
      exact stored_full hsize hframe (by rw [length_append]; omega)
    have hnext := @ih (l ++ [c]) (update s l.length c) (fun k hk => ?_) (by simp; omega) ?_
    · rwa [append_assoc, length_append] at hnext
    · rw [Function.update_of_ne (by omega), hframe k hk]
    · intro i hi
      rw [length_append, length_singleton] at hi
      by_cases heq : i = l.length
      · simp [heq]
      · rw [Function.update_of_ne heq, hchars i (by omega), getD_append _ _ _ _ (by omega)]

theorem writeOutput_stored (hsize : 0 < size) (h : Stored s0 size l st) :
    Stored s0 size (l ++ data) (writeOutput size st data) := by
  rcases st with ⟨s, out⟩
  rcases lt_or_ge l.length size with hlt | hge
  · obtain ⟨rfl, hchars⟩ := h.fits hlt
    exact writeOutput_room hsize h.frame (by omega) fun i hi => hchars i (by omega)
  · obtain ⟨rfl, -⟩ := h.full hge
    have hfull := stored_full hsize h.frame (l := l ++ data) (by rw [length_append]; omega)
    cases data <;> simpa [writeOutput] using hfull

theorem strlen_eq : ∀ {l : List UInt8} {fuel p : Nat}, (∀ i ≤ l.length, s (p + i) = l.getD i 0) →
    0 ∉ l → l.length < fuel → strlen s fuel p = l.length := by
  intro l
  induction l with
  | nil =>
    intro fuel p h _ hfuel
    obtain ⟨fuel, rfl⟩ := Nat.exists_eq_succ_of_ne_zero (by omega : fuel ≠ 0)
    exact if_pos (h 0 (le_refl _))
  | cons c l ih =>
    intro fuel p h h0 hfuel
    obtain ⟨fuel, rfl⟩ := Nat.exists_eq_succ_of_ne_zero (by omega : fuel ≠ 0)
    rw [mem_cons, not_or] at h0
    have hc : s p = c := h 0 (by omega)
    rw [strlen, if_neg (by rw [hc]; exact Ne.symm h0.1), ih (fun i hi => ?_) h0.2
      (by rw [length_cons] at hfuel; omega), length_cons]
    simp [show p + 1 + i = p + (i + 1) by omega, h (i + 1) (by rw [length_cons]; omega)]

theorem ofChar_char : Conv.ofChar conv.char = some conv := by
  cases conv <;> decide

theorem formatLoop_item (i : Item) (format : List UInt8) :
    formatLoop size tm false (i.chars ++ format) st =
      if i.isO then none
      else formatLoop size tm false format (writeOutput size st (i.text (convert tm))) := by
  have hchar : ∀ conv : Conv, ¬(conv.char = ch 'E' ∨ conv.char = ch '0') := by
    intro conv
    cases conv <;> decide
  rcases i with c | ⟨_ | _ | _, conv⟩
  · simp [Item.chars, formatLoop, Item.isO, Item.text, c.2.2]
  · simp [Item.chars, formatLoop, Item.isO, Item.text, hchar, ofChar_char]
  · simp [Item.chars, formatLoop, Item.isO, Item.text, hchar, ofChar_char]
  · have hO : Conv.ofChar (ch 'O') = none := by decide
    have hne : ¬(ch 'O' = ch 'E' ∨ ch 'O' = ch '0') := by decide
    rfl

theorem formatLoop_none (h : ∃ i ∈ items, i.isO) :
    formatLoop size tm false (items.flatMap Item.chars) st = none := by
  induction items generalizing st with
  | nil => simp at h
  | cons i items ih =>
    rw [flatMap_cons, formatLoop_item]
    split_ifs with hO
    · rfl
    · exact ih (by simpa [hO] using h)

theorem formatLoop_some (hsize : 0 < size) (h : ∀ i ∈ items, ¬i.isO) (hst : Stored s0 size l st) :
    ∃ st' : Bytes × Nat, formatLoop size tm false (items.flatMap Item.chars) st = some st'.1 ∧
      Stored s0 size (l ++ text (convert tm) items) st' := by
  induction items generalizing st l with
  | nil => exact ⟨st, rfl, by simpa [text] using hst⟩
  | cons i items ih =>
    rw [flatMap_cons, formatLoop_item, if_neg (h i (by simp)), text, flatMap_cons, ← append_assoc]
    exact ih (fun j hj => h j (by simp [hj])) (writeOutput_stored hsize hst)

/-! ## The text of a specifier -/

variable {w : Nat} {zero : Bool} {f : Field}

theorem signed_eq (hplus : f.flags.plus = false) (hspace : f.flags.space = false) (hv : 0 ≤ v) :
    f.signed v = f.unsigned v.toNat := by
  have hsign : f.sign v = [] := by simp [Field.sign, hplus, hspace, Int.not_lt.2 hv]
  rw [Field.signed, hsign, Field.unsigned, show v.natAbs = v.toNat by omega]

theorem int_eq (hv : 0 ≤ v) : int true w v = decimal w v := signed_eq rfl rfl hv

theorem digits_length (hf : f.precision = none) {k n : Nat} (hk : 0 < k) (hn : n < 10 ^ k) :
    (f.digits 10 false n).length ≤ k := by
  have := numeral_length_le false (by decide) hn
  rw [field_digits_length, hf, Option.getD_none]
  omega

/-- `%d` -/
theorem int_zero (hv : 0 ≤ v) : int false 0 v = decimal 1 v := by
  have hpos : (field true 1).width ≤ 0 + ((field true 1).digits 10 false v.toNat).length := by
    rw [field_digits_length, Nat.zero_add]
    exact Nat.le_max_left ..
  rw [int, signed_eq rfl rfl hv, decimal, Field.unsigned, Field.unsigned, Field.layout,
    Field.layout, layout_of_le (w := (field false 0).width) (Nat.zero_le _), layout_of_le hpos]
  rfl

theorem decimal_length (hw : 0 < w) (hv : v.toNat < 10 ^ w) : (decimal w v).length = w := by
  have hdigits := digits_length (f := field true w) rfl hw hv
  rw [decimal, Field.unsigned, Field.layout, layout_length, length_nil,
    show (field true w).width = w from rfl]
  omega

theorem zero_not_mem_digits (n : Nat) : 0 ∉ f.digits 10 false n := fun h =>
  absurd (atLeast_hex (by decide) (by decide) _ _ h) (by decide)

@[simp] theorem zero_not_mem_int : 0 ∉ int zero w v := by
  have hsign : ∀ f : Field, 0 ∉ f.sign v := by
    intro f
    unfold Field.sign
    split_ifs <;> decide
  rw [int, Field.signed, Field.layout]
  cases (field zero w).fill <;> simp [layout, hsign, zero_not_mem_digits, ch]

theorem filter_minus_unsigned (n : Nat) : (f.unsigned n).filter (· = ch '-') = [] := by
  rw [Field.unsigned, Field.layout, filter_layout (by decide) (by decide), Field.digits,
    digits_filter_minus (by decide) (by decide)]
  rfl

/-- A negative number is longer, and has a sign. -/
theorem int_neg (h : v < 0) (h' : -100 < v) (n : Int) (hn : n.toNat < 100) :
    (decimal 2 n).length ≤ (int true 2 v).length ∧ (int true 2 v).length ≤ 3 ∧
      int true 2 v ≠ decimal 2 n := by
  have hdigits := digits_length (f := field true 2) (k := 2) (n := v.natAbs) rfl (by decide) (by omega)
  have hsign : (field true 2).sign v = [ch '-'] := if_pos h
  refine ⟨?_, ?_, fun heq => ?_⟩
  · rw [decimal_length (by decide) hn, int, Field.signed, Field.layout, layout_length]
    exact le_max_left ..
  · rw [int, Field.signed, Field.layout, layout_length, hsign, length_singleton,
      show (field true 2).width = 2 from rfl]
    omega
  · have hfilter := congrArg (filter (· = ch '-')) heq
    rw [decimal, filter_minus_unsigned, int, Field.signed, Field.layout,
      filter_layout (by decide) (by decide), hsign] at hfilter
    simp at hfilter

theorem buffer_eq (h : l.length ≤ 31) : buffer l = l := take_of_length_le h

@[simp] theorem zero_not_mem_buffer (h : 0 ∉ l) : 0 ∉ buffer l := fun h0 =>
  h (mem_of_mem_take h0)

/-- The names have no zero byte, and are short. -/
def Names (r : String × String) : Prop :=
  0 ∉ str r.1 ∧ 0 ∉ str r.2 ∧ (str r.1).length ≤ 3 ∧ (str r.2).length ≤ 9

theorem names_getD {table : List (String × String)} (h : ∀ r ∈ table, Names r) (k : Nat) :
    Names (table.getD k ("", "")) := by
  rcases lt_or_ge k table.length with hlt | hge
  · rw [getD_eq_getElem _ _ hlt]
    exact h _ (getElem_mem hlt)
  · rw [getD_eq_default _ _ hge]
    exact ⟨by decide, by decide, by decide, by decide⟩

theorem day_names (k : Nat) : Names (days.getD k ("", "")) :=
  names_getD (by unfold Names; decide) k

theorem month_names (k : Nat) : Names (months.getD k ("", "")) :=
  names_getD (by unfold Names; decide) k

theorem zero_not_mem_convert : 0 ∉ convert tm conv := by
  have hday : 0 ∉ str (dayRecord tm).1 ∧ 0 ∉ str (dayRecord tm).2 :=
    (day_names _).imp_right And.left
  have hmonth : 0 ∉ str (monthRecord tm).1 ∧ 0 ∉ str (monthRecord tm).2 :=
    (month_names _).imp_right And.left
  have hsep : 0 ∉ str "%" ∧ 0 ∉ str " " ∧ 0 ∉ str ":" ∧ 0 ∉ str "/" ∧ 0 ∉ str "-" ∧
      0 ∉ str "AM" ∧ 0 ∉ str "PM" ∧ 0 ∉ str "+0000" := by decide
  have hampm : 0 ∉ amPm tm := by
    unfold amPm
    split_ifs
    · exact hsep.2.2.2.2.2.1
    · exact hsep.2.2.2.2.2.2.1
  cases conv <;> simp [convert, hms, mdy, hday, hmonth, hsep, hampm]

theorem standard_length (h : Normalized tm) : (standard tm conv).length ≤ 31 := by
  obtain ⟨hsec, hmin, hhour, hmday, hmon, hwday, hyday, hyear⟩ := h
  obtain ⟨-, -, hday, hday'⟩ := day_names tm.wday.toNat
  obtain ⟨-, -, hmonth, hmonth'⟩ := month_names tm.mon.toNat
  have hblank : (blankDay tm).length = 2 := by
    have := digits_length (f := field false 2) (k := 2) (n := tm.mday.toNat) rfl (by decide)
      (by omega)
    rw [blankDay, Field.unsigned, Field.layout, layout_length, length_nil,
      show (field false 2).width = 2 from rfl]
    omega
  have hstr : (str "%").length = 1 ∧ (str " ").length = 1 ∧ (str ":").length = 1 ∧
      (str "/").length = 1 ∧ (str "-").length = 1 ∧ (str "AM").length = 2 ∧
      (str "PM").length = 2 ∧ (str "+0000").length = 5 := by decide
  cases conv <;> simp (disch := omega) only [standard, date, hour12, hourMin, length_append,
    decimal_length, hstr, length_cons, length_nil, apply_ite length, ite_self] <;> omega

theorem convert_eq (h : Normalized tm) (hslip : Slip tm → conv ≠ .D ∧ conv ≠ .x ∧ conv ≠ .y) :
    convert tm conv = standard tm conv := by
  have hlen := @standard_length tm conv h
  obtain ⟨hsec, hmin, hhour, hmday, hmon, hwday, hyday, hyear⟩ := h
  have hday : dayRecord tm = days.getD tm.wday.toNat ("", "") := by
    rw [dayRecord, show tm.wday % 8 = tm.wday by omega]
  have hmonth : monthRecord tm = months.getD tm.mon.toNat ("", "") := by
    rw [monthRecord, show tm.mon % 16 = tm.mon by omega]
  have hclock : clock12 tm = (tm.hour + 11) % 12 + 1 := by
    unfold clock12
    split_ifs
    · rw [Int.tmod_eq_emod_of_nonneg hhour.1]
      omega
    · omega
  have hcentury : (tm.year + 1900).tdiv 100 = (tm.year + 1900) / 100 :=
    Int.tdiv_eq_ediv_of_nonneg hyear.1
  have hblank : int false 2 tm.mday = blankDay tm := signed_eq rfl rfl (by omega)
  have hdate : ¬Slip tm → tm.year.tmod 100 = (tm.year + 1900) % 100 := by
    intro h
    by_cases h0 : 0 ≤ tm.year
    · rw [Int.tmod_eq_emod_of_nonneg h0]
      omega
    · have hzero : tm.year % 100 = 0 := by
        by_contra hne
        exact h ⟨by omega, hne⟩
      rw [Int.tmod_eq_zero_of_dvd (Int.dvd_of_emod_eq_zero hzero)]
      omega
  have hweekday : (if tm.wday ≠ 0 then tm.wday else 7) = (tm.wday + 6) % 7 + 1 := by
    split_ifs <;> omega
  suffices hor : convert tm conv = standard tm conv ∨
      convert tm conv = buffer (standard tm conv) by
    rwa [buffer_eq hlen, or_self] at hor
  cases conv
  case D | x | y =>
    have hcentury := hdate fun hs => by simpa using hslip hs
    simp (disch := omega) only [convert, standard, mdy, date, int_eq, hcentury, or_true]
  all_goals
    simp (disch := omega) only [convert, standard, hour12, hourMin, hms, amPm, hday, hmonth, hclock,
      hcentury, hblank, int_zero, hweekday, int_eq, or_true, true_or]

theorem convert_slip (h : Normalized tm) (hslip : Slip tm)
    (hconv : conv = .D ∨ conv = .x ∨ conv = .y) :
    (standard tm conv).length ≤ (convert tm conv).length ∧ convert tm conv ≠ standard tm conv ∧
      0 < (standard tm conv).length := by
  obtain ⟨hsec, hmin, hhour, hmday, hmon, hwday, hyday, hyear⟩ := h
  obtain ⟨hneg, hne⟩ := hslip
  have htmod : -100 < tm.year.tmod 100 ∧ tm.year.tmod 100 < 0 := by
    rw [← Int.neg_neg tm.year, Int.neg_tmod, Int.tmod_eq_emod_of_nonneg (by omega)]
    omega
  obtain ⟨hle, hle3, hint⟩ := int_neg htmod.2 htmod.1 ((tm.year + 1900) % 100) (by omega)
  have hslash : (str "/").length = 1 := by decide
  have hday : convert tm .y = int true 2 (tm.year.tmod 100) := buffer_eq (by omega)
  have hdate : convert tm .D = decimal 2 (tm.mon + 1) ++ str "/" ++ decimal 2 tm.mday ++ str "/" ++
      int true 2 (tm.year.tmod 100) := by
    rw [← int_eq (by omega), ← int_eq (by omega)]
    refine buffer_eq ?_
    simp (disch := omega) only [mdy, int_eq, length_append, decimal_length]
    omega
  have hboth : (standard tm .D).length ≤ (convert tm .D).length ∧
      convert tm .D ≠ standard tm .D ∧ 0 < (standard tm .D).length := by
    rw [hdate, standard, date]
    refine ⟨?_, fun heq => hint (append_cancel_left heq), ?_⟩
    all_goals
      simp only [length_append]
      omega
  rcases hconv with rfl | rfl | rfl
  · exact hboth
  · exact hboth
  · rw [hday]
    exact ⟨hle, hint, by rw [standard, decimal_length (by decide) (by omega)]; decide⟩

/-! ## The whole text -/

section

variable (h : Normalized tm)
include h

theorem item_eq {i : Item} (hi : ¬(Slip tm ∧ i.shortYear)) :
    i.text (convert tm) = i.text (standard tm) := by
  rcases i with c | ⟨m, conv⟩
  · rfl
  · refine convert_eq h fun hslip => ?_
    cases conv <;> simp [Item.shortYear, hslip] at hi ⊢

theorem item_slip {i : Item} (hslip : Slip tm) (hi : i.shortYear) :
    (i.text (standard tm)).length ≤ (i.text (convert tm)).length ∧
      i.text (convert tm) ≠ i.text (standard tm) ∧ 0 < (i.text (standard tm)).length := by
  rcases i with c | ⟨m, conv⟩
  · cases hi
  · exact convert_slip h hslip (by cases conv <;> simp [Item.shortYear] at hi ⊢)

theorem text_length_le (items : List Item) :
    (text (standard tm) items).length ≤ (text (convert tm) items).length := by
  induction items with
  | nil => rfl
  | cons i items ih =>
    have hi : (i.text (standard tm)).length ≤ (i.text (convert tm)).length := by
      by_cases hi : Slip tm ∧ i.shortYear
      · exact (item_slip h hi.1 hi.2).1
      · rw [item_eq h hi]
    simp only [text, flatMap_cons, length_append] at ih ⊢
    omega

theorem text_eq_iff :
    text (convert tm) items = text (standard tm) items ↔
      ¬(Slip tm ∧ ∃ i ∈ items, i.shortYear) := by
  refine ⟨fun heq hboth => ?_, fun hno => ?_⟩
  · obtain ⟨hslip, hshort⟩ := hboth
    induction items with
    | nil => simp at hshort
    | cons i items ih =>
      have hle := text_length_le h items
      have hlen := congrArg length heq
      simp only [text, flatMap_cons, length_append] at heq hlen hle
      by_cases hi : i.shortYear
      · obtain ⟨hle', hne, -⟩ := item_slip h hslip hi
        exact hne (append_inj heq (by omega)).1
      · rw [item_eq h (by simp [hi])] at heq
        exact ih (append_cancel_left heq) (by simpa [hi] using hshort)
  · refine flatMap_congr fun i hi => item_eq h fun hslip => hno ⟨hslip.1, i, hi, hslip.2⟩

end

theorem zero_not_mem_text : 0 ∉ text (convert tm) items := by
  rw [text, mem_flatMap]
  rintro ⟨c | ⟨m, conv⟩, -, h0⟩
  · exact c.2.1 (mem_singleton.1 h0).symm
  · exact zero_not_mem_convert h0

/-- What the code does: no `O` in the format, the text is stored as it is. -/
theorem strftime_eq (hsize : 0 < size) (h : ∀ i ∈ items, ¬i.isO) :
    Result s size (text (convert tm) items) (strftime s size (items.flatMap Item.chars) tm) := by
  have hstart : Stored s size [] (update s 0 0, 0) := by
    refine ⟨fun k hk => Function.update_of_ne (by omega) _ _, fun _ => ⟨rfl, fun i hi => ?_⟩,
      fun h => by simp at h; omega⟩
    rw [length_nil, Nat.le_zero] at hi
    simp [hi]
  obtain ⟨⟨s', out⟩, hloop, hst⟩ := @formatLoop_some s size tm items [] _ hsize h hstart
  rw [nil_append] at hst
  refine ⟨s', ?_, hst.frame, fun hlt => (hst.fits hlt).2⟩
  rw [strftime, if_neg (by omega), hloop, Option.map_some]
  split_ifs with hlt
  · rw [strlen_eq (fun i hi => by rw [zero_add]; exact (hst.fits hlt).2 i hi)
      zero_not_mem_text hlt]
  · obtain ⟨size, rfl⟩ := Nat.exists_eq_succ_of_ne_zero (by omega : size ≠ 0)
    rw [strlen, if_pos (hst.full (by omega)).2]

/-- The standard is met up to the two slips: the modifier, and the sign of the
year of the century, which shows where the text fits. -/
theorem strftime_right_iff (h : Normalized tm) : Right s size items tm ↔
    size = 0 ∨ (∀ i ∈ items, ¬i.isO) ∧
      (¬Slip tm ∨ (∀ i ∈ items, ¬i.shortYear) ∨ size ≤ (text (standard tm) items).length) := by
  rcases Nat.eq_zero_or_pos size with rfl | hsize
  · exact ⟨fun _ => .inl rfl, fun _ => ⟨s, rfl, fun _ _ => rfl, fun h => absurd h (Nat.not_lt_zero _)⟩⟩
  by_cases hO : ∃ i ∈ items, i.isO
  · refine ⟨fun ⟨s', hrun, _⟩ => ?_, ?_⟩
    · rw [strftime, if_neg (by omega), formatLoop_none hO] at hrun
      cases hrun
    · rintro (h0 | ⟨hno, -⟩)
      · omega
      · obtain ⟨i, hi, hiO⟩ := hO
        exact absurd hiO (hno i hi)
  push Not at hO
  obtain ⟨s', hrun, hframe, hstored⟩ := @strftime_eq s size tm items hsize hO
  have hle := text_length_le h items
  constructor
  · rintro ⟨s'', hrun', -, hstored'⟩
    refine .inr ⟨hO, ?_⟩
    by_contra hno
    push Not at hno
    obtain ⟨hslip, ⟨i, hi, hshort⟩, hlt⟩ := hno
    have hpos : 0 < (text (standard tm) items).length := by
      have := (item_slip h hslip hshort).2.2
      obtain ⟨before, after, rfl⟩ := append_of_mem hi
      simp only [text, flatMap_append, flatMap_cons, length_append]
      omega
    rw [hrun, if_pos hlt, Option.some.injEq, Prod.mk.injEq] at hrun'
    obtain ⟨hret, rfl⟩ := hrun'
    have hfit : (text (convert tm) items).length < size := by
      by_contra hge
      rw [if_neg hge] at hret
      omega
    rw [if_pos hfit] at hret
    refine (text_eq_iff h).1 (ext_getElem hret fun k hk hk' => ?_) ⟨hslip, i, hi, hshort⟩
    have h1 := hstored hfit k (by omega)
    have h2 := hstored' hlt k (by omega)
    rw [getD_eq_getElem _ _ hk] at h1
    rw [getD_eq_getElem _ _ hk'] at h2
    rw [← h1, h2]
  · rintro (h0 | ⟨-, hcond⟩)
    · omega
    rcases lt_or_ge (text (standard tm) items).length size with hlt | hge
    · have heq : text (convert tm) items = text (standard tm) items := by
        refine (text_eq_iff h).2 fun ⟨hslip, i, hi, hshort⟩ => ?_
        rcases hcond with hno | hno | hno
        · exact hno hslip
        · exact hno i hi hshort
        · omega
      rw [heq] at hrun hstored
      exact ⟨s', hrun, hframe, hstored⟩
    · refine ⟨s', ?_, hframe, fun h => by omega⟩
      rw [hrun, if_neg (by omega), if_neg (by omega)]

/-- The first of January 2024 as `"24"`. -/
theorem strftime_right_2024 : Right (fun _ => 0) 3 [.spec none .y] ⟨0, 0, 0, 1, 0, 124, 1, 0, 0⟩ :=
  (strftime_right_iff (by constructor <;> decide)).2
    (.inr ⟨by decide, .inl fun h => absurd h.1 (by decide)⟩)

/-- `%Od` ends the program. -/
theorem modifier_exits : ¬∀ s size items tm, Normalized tm → Right s size items tm := by
  intro h
  obtain ⟨s', hrun, -⟩ := h (fun _ => 0) 3 [.spec (some .O) .d] ⟨0, 0, 0, 1, 0, 124, 1, 0, 0⟩
    (by constructor <;> decide)
  rw [strftime, if_neg (by decide), formatLoop_none ⟨_, mem_singleton_self _, rfl⟩] at hrun
  cases hrun

end Dancy.Libc.Strftime
