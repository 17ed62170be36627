import Dancy.Link.Library
import Dancy.Link.Validate
import Mathlib.Data.List.GetD
import Mathlib.Data.Nat.Digits.Defs

/-!
# Archives (`lib_main` and `process_lib_file` of `dy-link/lib.c`)

The output buffer is the list of its bytes; its size is checked as in the
source. `malloc n` tells whether the `n`-th allocation succeeds. Messages and
the file that is written to are left out.
-/

namespace Dancy.Link

open Dancy.Lib List

def OFILES_LIMIT : Nat := 4096

/-- `"!<arch>\n"`. -/
def archHeader : List UInt8 := [0x21, 0x3C, 0x61, 0x72, 0x63, 0x68, 0x3E, 0x0A]

def OFile.bytes (f : OFile) : List UInt8 := (range f.size).map f.data

/-! ## Writing -/

def addSize (ulongMax out add : Nat) : Option Nat :=
  let out := if out > ulongMax - add then 0xFFFFFFFF else out
  if out > 0x7FFFFFFF then none else some (out + add)

/-- The first loop: the objects are checked, and the size of the output buffer
grows by theirs. Slots without an object are left out. -/
def checkLoop (ulongMax : Nat) : List OFile → (type out : Nat) → Option Nat
  | [], _, out => some out
  | f :: files, type, out =>
    if f.data.word 0 = 0 then checkLoop ulongMax files type out
    else
      (validateObj ulongMax type f).bind fun r =>
        if r.1 then none
        else
          (addSize ulongMax out f.size).bind fun out =>
            (addSize ulongMax out 64).bind fun out => checkLoop ulongMax files r.2 out

/-- The loop over the symbols adds the sizes of their names and offsets. -/
def nameSizes (ulongMax : Nat) : List LibSymbol → (out : Nat) → Option Nat
  | [], out => some out
  | s :: ls, out =>
    (addSize ulongMax out s.name.length).bind fun out =>
      (addSize ulongMax out 5).bind fun out => nameSizes ulongMax ls out

/-- `"%lu"`. -/
def decimal (n : Nat) : List UInt8 := (Nat.toDigits 10 n).map fun c => UInt8.ofNat c.toNat

/-- `"%lX"`. -/
def upperHex (n : Nat) : List UInt8 :=
  (Nat.toDigits 16 n).map fun c => UInt8.ofNat c.toUpper.toNat

def memberHeader (name : List UInt8) (size : Nat) : List UInt8 :=
  name.rightpad 16 0x20 ++ ([45, 49] ++ replicate 22 0x20 ++ [48] ++ replicate 7 0x20) ++
    (decimal size).rightpad 10 0x20 ++ [0x60, 0x0A]

/-- `"%lX.o/"`. -/
def memberName (real : Nat) : List UInt8 := upperHex real ++ [46, 111, 47]

/-- `W_BE32`. -/
def be32 (v : Nat) : List UInt8 :=
  [UInt8.ofNat (v >>> 24), UInt8.ofNat (v >>> 16), UInt8.ofNat (v >>> 8), UInt8.ofNat v]

def padding (real : Nat) : List UInt8 := replicate (real % 2) 0x0A

def padded (real : Nat) : Nat := real + real % 2

/-- The loop that appends the members from the `i`-th file on and updates the
temporary values among the offsets. -/
def appendMembers : List OFile → (i real : Nat) → (offsets : List Nat) → List UInt8 × List Nat
  | [], _, _, offsets => ([], offsets)
  | f :: files, i, real, offsets =>
    if f.data.word 0 = 0 then appendMembers files (i + 1) real offsets
    else
      let offsets := offsets.map fun v => if v >>> 1 = i then real % 2 ^ 32 else v
      let next := real + 60 + f.size
      let r := appendMembers files (i + 1) (padded next) offsets
      (memberHeader (memberName real) f.size ++ f.bytes ++ padding next ++ r.1, r.2)

def nameTable (ls : List LibSymbol) : List UInt8 := ls.flatMap fun s => s.name ++ [0]

def indexSize (ls : List LibSymbol) : Nat :=
  4 + ls.length * 4 + (nameTable ls).length + if ls = [] then 1 else 0

def indexMember (ls : List LibSymbol) (offsets : List Nat) : List UInt8 :=
  memberHeader [0x2F] (indexSize ls) ++ be32 ls.length ++ offsets.flatMap be32 ++ nameTable ls ++
    if ls = [] then [0] else []

/-- The offset of the first header behind the special member. -/
def firstOffset (ls : List LibSymbol) : Nat := padded (8 + 60 + indexSize ls)

def temporary (s : LibSymbol) : Nat := (s.ofile <<< 1 ||| 1) % 2 ^ 32

/-- `lib_main`: the archive that is written; `none` if it fails. -/
def libMain (ulongMax type : Nat) (malloc : Nat → Bool) (files : List OFile) :
    Option (List UInt8) :=
  (checkLoop ulongMax files type 128).bind fun size =>
    (readExternalSymbols files 0 malloc).bind fun ls =>
      (nameSizes ulongMax ls size).bind fun size =>
        if malloc 1 = false then none
        else
          let members := appendMembers files 0 (firstOffset ls) (ls.map temporary)
          let out := archHeader ++ indexMember ls members.2 ++ padding (8 + 60 + indexSize ls) ++
            members.1
          if members.2.any fun v => v = 0 || v &&& 1 ≠ 0 then none
          else if size < out.length then none
          else some out

/-- The number in a size field, which ends at a blank. -/
def sizeField : List UInt8 → (size : Nat) → Option Nat
  | [], size => some size
  | c :: cs, size =>
    if c = 0x20 then some size
    else if c < 48 ∨ c > 57 then none
    else sizeField cs (size * 10 + (c.toNat - 48))

/-- The checks of a header, and the size in it. -/
def headerSize (data : List UInt8) : Option Nat :=
  if data.getD 58 0 ≠ 0x60 ∨ data.getD 59 0 ≠ 0x0A then none
  else if (data.take 48).any fun c => c < 0x20 || c > 0x7E then none
  else if data.getD 48 0 = 48 ∧ data.getD 49 0 ≠ 0x20 then none
  else if data.getD 57 0 ≠ 0x20 then none
  else sizeField ((data.drop 48).take 10) 0

/-- A member without an object that is supported. -/
def Ignored (data content : List UInt8) : Prop :=
  data.getD 0 0 = 0x2F ∧ (data.getD 1 0 < 48 ∨ data.getD 1 0 > 57) ∨ content.length < 20 ∨
    (content.getD 0 0).toNat + 256 * (content.getD 1 0).toNat ≠ 0x014C ∧
      (content.getD 0 0).toNat + 256 * (content.getD 1 0).toNat ≠ 0x8664

instance (data content : List UInt8) : Decidable (Ignored data content) :=
  inferInstanceAs (Decidable (_ ∨ _))

/-- The loop over the members: whether it succeeds, and the objects that are
added behind the first `nr` ones. Each round takes a header at least. -/
def processLoop (malloc : Nat → Bool) :
    (rounds : Nat) → List UInt8 → (nr : Nat) → Bool × List (List UInt8)
  | 0, _, _ => (true, [])
  | rounds + 1, data, nr =>
    let data := data.dropWhile (· = 0x0A)
    if data.length < 60 then (true, [])
    else
      match headerSize data with
      | none => (false, [])
      | some size =>
        let rest := data.drop 60
        if rest.length < size then (false, [])
        else if Ignored data (rest.take size) then processLoop malloc rounds (rest.drop size) nr
        else if nr ≥ OFILES_LIMIT then (false, [])
        else if malloc nr = false then (false, [])
        else
          let r := processLoop malloc rounds (rest.drop size) (nr + 1)
          (r.1, rest.take size :: r.2)

def processLibFile (malloc : Nat → Bool) (data : List UInt8) (nr : Nat) :
    Bool × List (List UInt8) :=
  if data.length = 8 then (true, []) else processLoop malloc data.length (data.drop 8) nr

/-! ## Numbers -/

theorem mem_toDigits {b : Nat} (hb : 1 < b) (n : Nat) :
    ∀ c ∈ Nat.toDigits b n, ∃ d < b, c = d.digitChar := by
  induction n using Nat.strongRecOn with
  | _ n ih =>
    intro c hc
    by_cases hn : n < b
    · rw [Nat.toDigits_of_lt_base hn, mem_singleton] at hc
      exact ⟨n, hn, hc⟩
    · rw [Nat.toDigits_of_base_le hb (by omega), mem_append, mem_singleton] at hc
      rcases hc with hc | rfl
      · exact ih (n / b) (Nat.div_lt_self (by omega) hb) c hc
      · exact ⟨n % b, Nat.mod_lt n (by omega), rfl⟩

variable {n : Nat} {c : UInt8}

theorem head_toDigits {b : Nat} (hb : 1 < b) (hn : 0 < n) :
    ∃ d cs, 0 < d ∧ d < b ∧ Nat.toDigits b n = d.digitChar :: cs := by
  induction n using Nat.strongRecOn with
  | _ n ih =>
    by_cases hlt : n < b
    · exact ⟨n, [], hn, hlt, Nat.toDigits_of_lt_base hlt⟩
    · obtain ⟨d, cs, hd, hdb, hcs⟩ := ih (n / b) (Nat.div_lt_self hn hb)
        (Nat.div_pos (by omega) (by omega))
      refine ⟨d, cs ++ [(n % b).digitChar], hd, hdb, ?_⟩
      rw [Nat.toDigits_of_base_le hb (by omega), hcs, cons_append]

theorem digit_byte : ∀ d < 10, UInt8.ofNat (Nat.digitChar d).toNat = UInt8.ofNat (48 + d) := by
  decide

/-- A digit is neither a blank nor another character, and gives its value. -/
theorem digit_read : ∀ d < 10, UInt8.ofNat (48 + d) ≠ 0x20 ∧
    ¬(UInt8.ofNat (48 + d) < 48 ∨ UInt8.ofNat (48 + d) > 57) ∧
    (UInt8.ofNat (48 + d)).toNat - 48 = d ∧ (0 < d → UInt8.ofNat (48 + d) ≠ 48) := by
  decide

theorem mem_decimal (hc : c ∈ decimal n) :
    ∃ d < 10, c = UInt8.ofNat (48 + d) := by
  obtain ⟨c', hc', rfl⟩ := mem_map.mp hc
  obtain ⟨d, hd, rfl⟩ := mem_toDigits (by decide) n c' hc'
  exact ⟨d, hd, digit_byte d hd⟩

theorem hex_byte : ∀ d < 16, (0x30 : UInt8) ≤ UInt8.ofNat (Nat.digitChar d).toUpper.toNat ∧
    UInt8.ofNat (Nat.digitChar d).toUpper.toNat ≤ 0x46 := by
  decide

theorem mem_upperHex (hc : c ∈ upperHex n) : 0x30 ≤ c ∧ c ≤ 0x46 := by
  obtain ⟨c', hc', rfl⟩ := mem_map.mp hc
  obtain ⟨d, hd, rfl⟩ := mem_toDigits (by decide) n c' hc'
  exact hex_byte d hd

theorem sizeField_digits (rest : List UInt8) : ∀ {cs : List Char} {size : Nat},
    (∀ c ∈ cs, ∃ d < 10, c = Nat.digitChar d) →
    sizeField (cs.map (fun c => UInt8.ofNat c.toNat) ++ 0x20 :: rest) size =
      some (Nat.ofDigitChars 10 cs size) := by
  intro cs
  induction cs with
  | nil =>
    intro size _
    simp [sizeField]
  | cons c cs ih =>
    intro size hdigits
    obtain ⟨d, hd, rfl⟩ := hdigits c mem_cons_self
    obtain ⟨hblank, hdigit, hvalue, -⟩ := digit_read d hd
    rw [map_cons, cons_append, sizeField, digit_byte d hd, if_neg hblank,
      if_neg hdigit, hvalue, ih fun c hc => hdigits c (.tail _ hc),
      Nat.ofDigitChars_cons_digitChar_of_lt_ten hd, mul_comm]

theorem decimal_length_le {k : Nat} (hk : 0 < k) : (decimal n).length ≤ k ↔ n < 10 ^ k := by
  rw [decimal, length_map, Nat.length_toDigits_le_iff (by decide) hk]

/-! ## Headers -/

theorem rightpad_eq {l : List UInt8} :
    l.rightpad n c = l ++ replicate (n - l.length) c := rfl

theorem getD_behind {a b : List UInt8} (i : Nat) (h : a.length = n) (d : UInt8) :
    (a ++ b).getD (n + i) d = b.getD i d := by
  rw [getD_append_right _ _ _ _ (by omega), h, Nat.add_sub_cancel_left]

def headerMiddle : List UInt8 :=
  [45, 49] ++ replicate 22 0x20 ++ [48] ++ replicate 7 0x20

theorem memberHeader_eq (name : List UInt8) (size : Nat) : memberHeader name size =
    (name.rightpad 16 0x20 ++ headerMiddle) ++ ((decimal size).rightpad 10 0x20 ++ [0x60, 0x0A]) := by
  rw [memberHeader, headerMiddle, append_assoc _ ((decimal size).rightpad 10 0x20)]

variable {name rest : List UInt8} {size : Nat}

theorem front_length (hname : name.length ≤ 16) :
    (name.rightpad 16 0x20 ++ headerMiddle).length = 48 := by
  rw [length_append, length_rightpad, max_eq_left hname]
  rfl

theorem field_length (hsize : size < 10 ^ 10) : ((decimal size).rightpad 10 0x20).length = 10 := by
  rw [length_rightpad, max_eq_left ((decimal_length_le (by decide)).mpr hsize)]

theorem memberHeader_length (hname : name.length ≤ 16) (hsize : size < 10 ^ 10) :
    (memberHeader name size).length = 60 := by
  rw [memberHeader_eq, length_append, front_length hname, length_append, field_length hsize]
  rfl

theorem field_small (hsize : size ≤ 999999999) (h : 0 < size) :
    ((decimal size).rightpad 10 0x20).getD 9 0 = 0x20 ∧
      sizeField ((decimal size).rightpad 10 0x20) 0 = some size ∧
      ((decimal size).rightpad 10 0x20).getD 0 0 ≠ 48 := by
  have hlen : (decimal size).length ≤ 9 := (decimal_length_le (by decide)).mpr (by omega)
  obtain ⟨k, hk⟩ : ∃ k, 10 - (decimal size).length = k + 1 := ⟨9 - (decimal size).length, by omega⟩
  rw [rightpad_eq, hk]
  refine ⟨?_, ?_, ?_⟩
  · rw [getD_append_right _ _ _ _ hlen, getD_replicate _ (by omega)]
  · rw [replicate_succ, decimal, sizeField_digits _ (mem_toDigits (by decide) size),
      Nat.ofDigitChars_ten_toDigits]
  · obtain ⟨d, cs, hd, hlt, hcs⟩ := head_toDigits (b := 10) (by decide) h
    rw [decimal, hcs, map_cons, cons_append, getD_cons_zero, digit_byte d hlt]
    exact (digit_read d hlt).2.2.2 hd

theorem field_big (hbig : 999999999 < size) (hsize : size < 10 ^ 10) :
    ((decimal size).rightpad 10 0x20).getD 9 0 ≠ 0x20 := by
  have hlen : (decimal size).length = 10 := by
    have hle := (decimal_length_le (k := 10) (by decide)).mpr hsize
    have hlt : ¬(decimal size).length ≤ 9 := by
      rw [decimal_length_le (by decide)]
      omega
    omega
  have hmem : (decimal size).getD 9 0 ∈ decimal size := by
    rw [getD_eq_getElem _ _ (by omega)]
    simp
  obtain ⟨d, hd, heq⟩ := mem_decimal hmem
  rw [rightpad_eq, hlen, Nat.sub_self, replicate_zero, append_nil, heq]
  exact (digit_read d hd).1

/-- The header of a member gives its size back if it has nine digits at most. -/
theorem headerSize_memberHeader (hname : name.length ≤ 16)
    (hchars : ∀ c ∈ name, 0x20 ≤ c ∧ c ≤ 0x7E) (hpos : 0 < size) (hsize : size < 10 ^ 10) :
    headerSize (memberHeader name size ++ rest) =
      if size ≤ 999999999 then some size else none := by
  have hfront := front_length hname
  have hfield := field_length hsize
  rw [memberHeader_eq, append_assoc _ _ rest, headerSize, append_assoc _ _ rest]
  have hend : ∀ i, ((name.rightpad 16 0x20 ++ headerMiddle) ++
      ((decimal size).rightpad 10 0x20 ++ ([0x60, 0x0A] ++ rest))).getD (58 + i) 0 =
        ([0x60, 0x0A] ++ rest).getD i 0 := by
    intro i
    rw [show 58 + i = 48 + (10 + i) by omega, getD_behind _ hfront, getD_behind _ hfield]
  have hin : ∀ i < 10, ((name.rightpad 16 0x20 ++ headerMiddle) ++
      ((decimal size).rightpad 10 0x20 ++ ([0x60, 0x0A] ++ rest))).getD (48 + i) 0 =
        ((decimal size).rightpad 10 0x20).getD i 0 := by
    intro i hi
    rw [getD_behind _ hfront, getD_append _ _ _ _ (by omega)]
  have hprint : ((name.rightpad 16 0x20 ++ headerMiddle).any fun c => c < 0x20 || c > 0x7E) =
      false := by
    rw [any_append, rightpad_eq, any_append, Bool.or_eq_false_iff, Bool.or_eq_false_iff]
    refine ⟨⟨?_, ?_⟩, by decide⟩
    · rw [any_eq_false]
      intro c hc
      have := hchars c hc
      simp [this]
    · rw [any_eq_false]
      intro c hc
      rw [eq_of_mem_replicate hc]
      decide
  rw [hend 0, hend 1, hin 0 (by decide), hin 1 (by decide), hin 9 (by decide),
    if_neg (by simp), take_left' hfront, hprint, if_neg Bool.noConfusion,
    drop_left' hfront, take_left' hfield]
  by_cases hle : size ≤ 999999999
  · obtain ⟨hblank, hread, hzero⟩ := field_small hle hpos
    rw [if_pos hle, if_neg (fun h => hzero h.1), if_neg (not_not.mpr hblank), hread]
  · rw [if_neg hle, if_pos (field_big (by omega) hsize), ite_self]

/-! ## Members -/

variable {malloc : Nat → Bool}

variable {p rounds nr real : Nat}

theorem dropWhile_padding {data : List UInt8} (h : data.getD 0 0 ≠ 0x0A) :
    (replicate p 0x0A ++ data).dropWhile (· = 0x0A) = data := by
  rw [dropWhile_append_of_pos]
  · cases data with
    | nil => rfl
    | cons c data => exact dropWhile_cons_of_neg (by simpa using h)
  · intro c hc
    rw [eq_of_mem_replicate hc]
    rfl

theorem memberHeader_getD {i : Nat} (hname : name.length ≤ 16) (hi : i < 16) :
    (memberHeader name size ++ rest).getD i 0 = (name.rightpad 16 0x20).getD i 0 := by
  have hlen : (name.rightpad 16 0x20).length = 16 := by
    rw [length_rightpad, max_eq_left hname]
  rw [memberHeader_eq, append_assoc, append_assoc, getD_append _ _ _ _ (by omega)]

theorem processLoop_header {content : List UInt8} (hname : name.length ≤ 16)
    (hchars : ∀ c ∈ name, 0x20 ≤ c ∧ c ≤ 0x7E) (hhead : (name.rightpad 16 0x20).getD 0 0 ≠ 0x0A)
    (hpos : 0 < size) (hsize : size < 10 ^ 10) (hcontent : content.length = size) :
    processLoop malloc (rounds + 1)
        (replicate p 0x0A ++ (memberHeader name size ++ (content ++ rest))) nr =
      if size ≤ 999999999 then
        if Ignored (memberHeader name size ++ (content ++ rest)) content then
          processLoop malloc rounds rest nr
        else if nr ≥ OFILES_LIMIT ∨ malloc nr = false then (false, [])
        else
          ((processLoop malloc rounds rest (nr + 1)).1,
            content :: (processLoop malloc rounds rest (nr + 1)).2)
      else (false, []) := by
  have hlen := @memberHeader_length _ size hname hsize
  have hfirst : (memberHeader name size ++ (content ++ rest)).getD 0 0 ≠ 0x0A := by
    rwa [memberHeader_getD hname (by decide)]
  simp only [processLoop, dropWhile_padding hfirst, headerSize_memberHeader hname hchars hpos hsize]
  rw [if_neg (by rw [length_append]; omega)]
  by_cases hle : size ≤ 999999999
  · simp only [if_pos hle, drop_left' hlen, take_left' hcontent, drop_left' hcontent]
    rw [if_neg (by rw [length_append]; omega)]
    by_cases hign : Ignored (memberHeader name size ++ (content ++ rest)) content
    · rw [if_pos hign, if_pos hign]
    rw [if_neg hign, if_neg hign]
    by_cases hnr : nr ≥ OFILES_LIMIT
    · rw [if_pos hnr, if_pos (.inl hnr)]
    · rw [if_neg hnr]
      by_cases hmalloc : malloc nr = false
      · rw [if_pos hmalloc, if_pos (.inr hmalloc)]
      · rw [if_neg hmalloc, if_neg (not_or.mpr ⟨hnr, hmalloc⟩)]
  · simp only [if_neg hle]

theorem processLoop_index {content : List UInt8} (hpos : 0 < content.length)
    (hsize : content.length < 10 ^ 10) :
    processLoop malloc (rounds + 1)
        (replicate p 0x0A ++ (memberHeader [0x2F] content.length ++ (content ++ rest))) nr =
      if content.length ≤ 999999999 then processLoop malloc rounds rest nr else (false, []) := by
  have hign : Ignored (memberHeader [0x2F] content.length ++ (content ++ rest)) content := by
    refine .inl ⟨?_, .inl ?_⟩
    · rfl
    · rw [memberHeader_getD (by decide) (by decide)]
      decide
  rw [processLoop_header (by decide) (by simp) (by decide) hpos hsize rfl, if_pos hign]

structure Supported (f : OFile) : Prop where
  length : 20 ≤ f.size
  kind : f.data.word 0 = 0x014C ∨ f.data.word 0 = 0x8664

theorem bytes_length (f : OFile) : f.bytes.length = f.size := by
  simp [OFile.bytes]

theorem bytes_getD {f : OFile} {i : Nat} (h : i < f.size) : f.bytes.getD i 0 = f.data i := by
  rw [getD_eq_getElem _ _ (by rwa [bytes_length])]
  simp [OFile.bytes]

theorem memberName_length (h : real < 2 ^ 32) : (memberName real).length ≤ 16 := by
  have hlen : (Nat.toDigits 16 real).length ≤ 8 :=
    (Nat.length_toDigits_le_iff (by decide) (by decide)).mpr h
  rw [memberName, length_append, upperHex, length_map]
  exact le_trans (Nat.add_le_add_right hlen 3) (by decide)

theorem memberName_chars : ∀ c ∈ memberName real, 0x20 ≤ c ∧ c ≤ 0x7E := by
  intro c hc
  rcases mem_append.mp hc with hc | hc
  · obtain ⟨hlo, hhi⟩ := mem_upperHex hc
    exact ⟨UInt8.le_trans (by decide) hlo, UInt8.le_trans hhi (by decide)⟩
  · have hsuffix : ∀ c ∈ ([46, 111, 47] : List UInt8), 0x20 ≤ c ∧ c ≤ 0x7E := by simp
    exact hsuffix c hc

/-- The first character of a member's name is neither padding nor a slash. -/
theorem memberName_head (real : Nat) :
    0x30 ≤ ((memberName real).rightpad 16 0x20).getD 0 0 := by
  have hpos : 0 < (upperHex real).length := by
    rw [upperHex, length_map]
    exact Nat.length_toDigits_pos
  rw [rightpad_eq, memberName, append_assoc, getD_append _ _ _ _ hpos, getD_eq_getElem _ _ hpos]
  exact (mem_upperHex (getElem_mem _)).1

/-- An object is added if its size has nine digits at most and there is room. -/
theorem processLoop_member {f : OFile} (hf : Supported f) (hreal : real < 2 ^ 32)
    (hsize : f.size < 2 ^ 32) :
    processLoop malloc (rounds + 1)
        (replicate p 0x0A ++ (memberHeader (memberName real) f.size ++ (f.bytes ++ rest))) nr =
      if f.size ≤ 999999999 then
        if nr ≥ OFILES_LIMIT ∨ malloc nr = false then (false, [])
        else
          ((processLoop malloc rounds rest (nr + 1)).1,
            f.bytes :: (processLoop malloc rounds rest (nr + 1)).2)
      else (false, []) := by
  have hhead := memberName_head real
  have hlen := hf.length
  rw [processLoop_header (memberName_length hreal) memberName_chars ?_ (by omega) (by omega)
    (bytes_length f), if_neg (c := Ignored _ _)]
  · rintro (⟨hslash, -⟩ | hshort | hkind)
    · rw [memberHeader_getD (memberName_length hreal) (by decide)] at hslash
      rw [hslash] at hhead
      simp at hhead
    · rw [bytes_length] at hshort
      omega
    · rw [bytes_getD (by omega), bytes_getD (by omega)] at hkind
      have := hf.kind
      rw [Bytes.word, zero_add] at this
      omega
  · intro h
    rw [h] at hhead
    exact absurd hhead (by decide)

/-- The members of the files, of which the first begins at `real`. -/
def membersFrom : List OFile → (real : Nat) → List UInt8
  | [], _ => []
  | f :: files, real =>
    if f.data.word 0 = 0 then membersFrom files real
    else
      memberHeader (memberName real) f.size ++ f.bytes ++ padding (real + 60 + f.size) ++
        membersFrom files (padded (real + 60 + f.size))

theorem appendMembers_fst : ∀ {files : List OFile} {i real : Nat} {offsets : List Nat},
    (appendMembers files i real offsets).1 = membersFrom files real := by
  intro files
  induction files with
  | nil => exact rfl
  | cons f files ih =>
    intro i real offsets
    rw [appendMembers, membersFrom]
    split
    · exact ih
    · exact congrArg _ ih

def objects (files : List OFile) : List OFile := files.filter fun f => f.data.word 0 ≠ 0

/-- What becomes of objects that are read in their order. -/
def readAll (malloc : Nat → Bool) : List (List UInt8) → (nr : Nat) → Bool × List (List UInt8)
  | [], _ => (true, [])
  | content :: contents, nr =>
    if content.length ≤ 999999999 then
      if nr ≥ OFILES_LIMIT ∨ malloc nr = false then (false, [])
      else ((readAll malloc contents (nr + 1)).1, content :: (readAll malloc contents (nr + 1)).2)
    else (false, [])

theorem readAll_eq_iff {contents : List (List UInt8)} : ∀ {nr : Nat}, nr ≤ OFILES_LIMIT →
    (readAll malloc contents nr = (true, contents) ↔
      (∀ content ∈ contents, content.length ≤ 999999999) ∧
        nr + contents.length ≤ OFILES_LIMIT ∧ ∀ i < contents.length, malloc (nr + i) = true) := by
  induction contents with
  | nil =>
    intro nr hnr
    exact ⟨fun _ => ⟨fun c hc => absurd hc not_mem_nil, hnr,
      fun i hi => absurd hi (Nat.not_lt_zero i)⟩, fun _ => rfl⟩
  | cons content contents ih =>
    intro nr hnr
    rw [readAll]
    by_cases hsize : content.length ≤ 999999999
    · rw [if_pos hsize]
      by_cases hroom : nr ≥ OFILES_LIMIT ∨ malloc nr = false
      · rw [if_pos hroom]
        refine ⟨fun h => (by cases h), fun h => ?_⟩
        rw [length_cons] at h
        rcases hroom with hroom | hroom
        · omega
        · have := h.2.2 0 (by omega)
          rw [add_zero, hroom] at this
          cases this
      · rw [if_neg hroom]
        have hih := @ih (nr + 1) (by omega)
        rw [Prod.ext_iff] at hih
        rw [Prod.mk.injEq, cons.injEq, forall_mem_cons, length_cons, and_iff_right rfl, hih]
        constructor
        · rintro ⟨hall, hle, hmalloc⟩
          refine ⟨⟨hsize, hall⟩, by omega, fun i hi => ?_⟩
          cases i with
          | zero => exact Bool.not_eq_false _ ▸ fun h => hroom (.inr h)
          | succ i =>
            have := hmalloc i (by omega)
            rwa [show nr + 1 + i = nr + (i + 1) by omega] at this
        · rintro ⟨⟨-, hall⟩, hle, hmalloc⟩
          refine ⟨hall, by omega, fun i hi => ?_⟩
          have := hmalloc (i + 1) (by omega)
          rwa [show nr + (i + 1) = nr + 1 + i by omega] at this
    · rw [if_neg hsize]
      exact ⟨fun h => (by cases h), fun h => absurd (h.1 content mem_cons_self) hsize⟩

theorem processLoop_members : ∀ {files : List OFile} {real rounds p nr : Nat},
    (∀ f ∈ files, f.data.word 0 ≠ 0 → Supported f) →
    real + (membersFrom files real).length < 2 ^ 32 → (membersFrom files real).length ≤ rounds →
    processLoop malloc rounds (replicate p 0x0A ++ membersFrom files real) nr =
      readAll malloc ((objects files).map OFile.bytes) nr := by
  intro files
  induction files with
  | nil =>
    intro real rounds p nr _ _ _
    cases rounds with
    | zero => rfl
    | succ rounds =>
      simp only [processLoop, membersFrom, @dropWhile_padding p [] (by decide)]
      rfl
  | cons f files ih =>
    intro real rounds p nr hgood htotal hrounds
    rw [membersFrom] at htotal hrounds ⊢
    by_cases hempty : f.data.word 0 = 0
    · rw [if_pos hempty] at htotal hrounds ⊢
      rw [objects, filter_cons_of_neg (by simpa using hempty)]
      exact ih (fun f' hf' => hgood f' (.tail _ hf')) htotal hrounds
    rw [if_neg hempty] at htotal hrounds ⊢
    have hf := hgood f mem_cons_self hempty
    simp only [length_append, bytes_length] at htotal hrounds
    have hlen := @memberHeader_length _ f.size (@memberName_length real (by omega))
      (by omega)
    have hpad : (padding (real + 60 + f.size)).length = (real + 60 + f.size) % 2 :=
      length_replicate
    obtain ⟨rounds, rfl⟩ : ∃ k, rounds = k + 1 := ⟨rounds - 1, by omega⟩
    rw [objects, filter_cons_of_pos (by simpa using hempty), ← objects, map_cons,
      readAll, append_assoc, append_assoc, processLoop_member hf (by omega) (by omega),
      bytes_length, padding, ih (fun f' hf' => hgood f' (.tail _ hf'))]
    · have hnext : padded (real + 60 + f.size) =
          real + 60 + f.size + (real + 60 + f.size) % 2 := rfl
      omega
    · omega

end Dancy.Link
