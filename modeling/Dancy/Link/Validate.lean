import Dancy.Link.Section

/-!
# Checks of an object file (`dy-link/validate.c`)

Each read of the buffer is checked: `none` is a read outside of it. `ulongMax`
is `ULONG_MAX`, and sums are taken modulo the word. An error is collected as the
source collects it; the messages are left out.
-/

namespace Dancy.Link

open Dancy.Lib List Option

def OFile.byte? (f : OFile) (i : Nat) : Option Nat :=
  if i < f.size then some (f.data i).toNat else none

def OFile.word? (f : OFile) (i : Nat) : Option Nat :=
  if i + 2 ≤ f.size then some (f.data.word i) else none

def OFile.dword? (f : OFile) (i : Nat) : Option Nat :=
  if i + 4 ≤ f.size then some (f.data.dword i) else none

/-- The checks one after the other; none of them is left out after an error. -/
def anyErr : List (Option Bool) → Option Bool
  | [] => some false
  | c :: cs => c.bind fun e => (anyErr cs).map (e || ·)

/-! ## Names and relocations -/

/-- `validate_reloc_type`. -/
def relocWidth (arch type : Nat) : Nat :=
  if arch = 0x014C ∧ type < 0x8000 then
    if type = 0x06 ∨ type = 0x07 ∨ type = 0x14 then 4 else 0
  else if arch = 0x8664 ∧ type < 0x8000 then
    if type = 0x01 then 8
    else if type = 0x02 ∨ type = 0x03 ∨ type = 0x04 then 4
    else if 0x05 ≤ type ∧ type ≤ 0x09 then type
    else 0
  else 0

def textName : List UInt8 := [46, 116, 101, 120, 116]
def rdataName : List UInt8 := [46, 114, 100, 97, 116, 97]
def dataName : List UInt8 := [46, 100, 97, 116, 97]
def bssName : List UInt8 := [46, 98, 115, 115]

/-- `strncmp` with a name that has no zero: the first characters are the same. -/
def startsWith (f : OFile) : List UInt8 → (p : Nat) → Option Bool
  | [], _ => some true
  | c :: name, p =>
    (f.byte? p).bind fun b => if b ≠ c.toNat then some false else startsWith f name (p + 1)

def nameErr (f : OFile) (p flags : Nat) (name : List UInt8) (bits : Nat) : Option Bool :=
  (startsWith f name p).map fun s => s && flags &&& 0xF0 ≠ bits

def validateName (f : OFile) (p flags : Nat) : Option Bool :=
  anyErr [nameErr f p flags textName 0x20, nameErr f p flags rdataName 0x40,
    nameErr f p flags dataName 0x40, nameErr f p flags bssName 0x80]

/-- The place behind the first zero of a short name. -/
def firstZero (f : OFile) (sym : Nat) : (left i : Nat) → Option Nat
  | 0, i => some i
  | left + 1, i =>
    (f.byte? (sym + i)).bind fun c =>
      if c = 0 then some (i + 1) else firstZero f sym left (i + 1)

def restErr (f : OFile) (sym : Nat) : (left i : Nat) → Option Bool
  | 0, _ => some false
  | left + 1, i =>
    (f.byte? (sym + i)).bind fun c => (restErr f sym left (i + 1)).map (c ≠ 0 || ·)

def symbolErr (f : OFile) (sym strtabSize sections : Nat) : Option Bool :=
  anyErr
    [ (f.byte? (sym + 16)).map (· = 0xD0)
    , (f.dword? sym).bind fun name =>
        if name ≠ 0 then some false
        else (f.dword? (sym + 4)).map fun pos => pos < 4 || pos ≥ strtabSize
    , (f.word? (sym + 12)).map fun sec => sec < 0xFFFE && sec > sections
    , (f.word? (sym + 12)).bind fun sec => (f.dword? (sym + 8)).bind fun value =>
        if sec ≠ 0 ∨ value ≠ 0 then some false
        else (f.byte? (sym + 16)).map fun c => c ≠ 2 && c ≠ 105
    , (f.byte? sym).bind fun c =>
        if c = 0 then (f.dword? sym).map (· ≠ 0)
        else (firstZero f sym 8 0).bind fun i => restErr f sym (8 - i) i
    , (f.byte? (sym + 17)).bind fun extra =>
        if extra ≤ 1 then some false else (f.byte? (sym + 16)).map (· ≠ 0x67) ]

/-- The loop over the symbols; each round takes a record at least. -/
def symbolsLoop (f : OFile) (offset symbols strtabSize sections : Nat) :
    (rounds i : Nat) → Option Bool
  | 0, i => some (i ≠ symbols)
  | rounds + 1, i =>
    if i < symbols then
      (symbolErr f (offset + i * 18) strtabSize sections).bind fun err =>
        if err then some true
        else
          (f.byte? (offset + i * 18 + 17)).bind fun extra =>
            symbolsLoop f offset symbols strtabSize sections rounds (i + extra + 1)
    else some (i ≠ symbols)

/-- The symbol table and the string table: whether there is an error, and the
size of the string table. -/
def tablesErr (ulongMax : Nat) (f : OFile) (symbols sections : Nat) : Option (Bool × Nat) :=
  (f.dword? 8).bind fun offset =>
    let bytes := if symbols < 0x00FFFFFF then symbols * 18 else symbols
    if symbols ≥ 0x00FFFFFF ∨ offset > ulongMax - bytes ∨
        (offset + bytes) % (ulongMax + 1) > f.size then some (true, 0)
    else
      let strtab := (offset + bytes) % (ulongMax + 1)
      (if strtab > ulongMax - 4 then some 0 else f.dword? strtab).bind fun strtabSize =>
        if strtabSize < 4 ∨ strtab > ulongMax - strtabSize ∨
            (strtab + strtabSize) % (ulongMax + 1) > f.size then some (true, strtabSize)
        else
          (f.byte? (strtab + strtabSize - 1)).bind fun last =>
            if last ≠ 0 then some (true, strtabSize)
            else
              (symbolsLoop f offset symbols strtabSize sections symbols 0).map (·, strtabSize)

/-! ## Sections -/

/-- The number behind the slash of a section name, and whether it has other
characters than digits. -/
def nameNumber (ulongMax : Nat) (f : OFile) (s : Nat) : (left j : Nat) → (err : Bool) →
    (offset : Nat) → Option (Bool × Nat)
  | 0, _, err, offset => some (err, offset)
  | left + 1, j, err, offset =>
    (f.byte? (s + j)).bind fun c =>
      if c = 0 then some (err, offset)
      else
        let a := (c + (ulongMax + 1) - 0x30) % (ulongMax + 1)
        nameNumber ulongMax f s left (j + 1) (err || c < 0x30 || c > 0x39)
          ((offset * 10 + a) % (ulongMax + 1))

/-- The name of a section, which is in the string table behind `strtab` if it
is a number. -/
def sectionNameErr (ulongMax : Nat) (f : OFile) (strtab strtabSize s flags : Nat) : Option Bool :=
  (f.byte? s).bind fun slash =>
    if slash = 0x2F then
      (f.byte? (s + 1)).bind fun first =>
        (nameNumber ulongMax f s 7 1 (first < 0x31) 0).bind fun number =>
          if number.2 < strtabSize then
            (validateName f (strtab + number.2) flags).map (number.1 || ·)
          else some true
    else validateName f s flags

def relocErr (ulongMax : Nat) (f : OFile) (ptr dataSize symbols type : Nat) : Option Bool :=
  (f.dword? ptr).bind fun off => (f.dword? (ptr + 4)).bind fun idx =>
    (f.word? (ptr + 8)).bind fun typ =>
      let bytes := relocWidth type typ
      anyErr
        [ some (bytes = 0)
        , some (off &&& 0x80000000 ≠ 0)
        , some ((off + bytes) % (ulongMax + 1) > dataSize)
        , some (idx ≥ symbols) ]

def relocLoop (ulongMax : Nat) (f : OFile) (dataSize symbols type : Nat) :
    (left ptr : Nat) → Option Bool
  | 0, _ => some false
  | left + 1, ptr =>
    (relocErr ulongMax f ptr dataSize symbols type).bind fun err =>
      if err then some true else relocLoop ulongMax f dataSize symbols type left (ptr + 10)

/-- The checks of flags that exclude each other. -/
def flagsErr (flags : Nat) : Bool :=
  flags &&& 0x01000000 ≠ 0 ||
  (flags &&& 0x00F00000) > 0x00D00000 ||
  (flags &&& 0x20000000 ≠ 0 && flags &&& 0x20 = 0) ||
  (if flags &&& 0x20 ≠ 0 then flags &&& 0x40 ≠ 0 || flags &&& 0x80 ≠ 0
    else if flags &&& 0x40 ≠ 0 then flags &&& 0x20 ≠ 0 || flags &&& 0x80 ≠ 0
    else if flags &&& 0x80 ≠ 0 then flags &&& 0x20 ≠ 0 || flags &&& 0x40 ≠ 0
    else false)

/-- A section of uninitialized data has neither data nor relocations in the
file; the data of others is behind the header. -/
def bssErr (flags dataSize dataOffset reloOffset reloSize : Nat) : Bool :=
  if flags &&& 0x80 ≠ 0 then dataOffset ≠ 0 || (reloOffset ≠ 0 || reloSize ≠ 0)
  else dataSize ≠ 0 && dataOffset < 0x14

/-- The checks of the header of a section, before those of its relocations. -/
def headerErr (ulongMax : Nat) (f : OFile) (strtab strtabSize s : Nat) : Option Bool :=
  (f.dword? (s + 16)).bind fun dataSize => (f.dword? (s + 20)).bind fun dataOffset =>
    (f.dword? (s + 24)).bind fun reloOffset => (f.word? (s + 32)).bind fun count =>
      (f.dword? (s + 36)).bind fun flags =>
        let reloSize := count * 10
        anyErr
          [ sectionNameErr ulongMax f strtab strtabSize s flags
          , (f.dword? (s + 12)).map (· ≠ 0)
          , some (bssErr flags dataSize dataOffset reloOffset reloSize)
          , some (flagsErr flags)
          , some (dataSize > ulongMax - dataOffset)
          , some ((dataSize + dataOffset) % (ulongMax + 1) > f.size && flags &&& 0x80 = 0)
          , some (reloSize > ulongMax - reloOffset)
          , some ((reloSize + reloOffset) % (ulongMax + 1) > f.size)
          , some (reloSize % 10 ≠ 0) ]

/-- The sum of the sizes behind a section; `none` is an error. -/
def addSection (ulongMax dataSize total : Nat) : Option Nat :=
  if dataSize > ulongMax - 40 then none
  else if dataSize + 40 < INT_MAX then
    if total < INT_MAX - (dataSize + 40) then some (total + (dataSize + 40)) else none
  else none

/-- The loop over the sections from the `i`-th on. -/
def sectionsLoop (ulongMax : Nat) (f : OFile) (strtab strtabSize symbols type : Nat) :
    (left i total : Nat) → Option Bool
  | 0, _, _ => some false
  | left + 1, i, total =>
    (headerErr ulongMax f strtab strtabSize (sect i)).bind fun err =>
      if err then some true
      else
        (f.dword? (sect i + 16)).bind fun dataSize =>
          (f.dword? (sect i + 24)).bind fun reloOffset =>
            (f.word? (sect i + 32)).bind fun count =>
              (relocLoop ulongMax f dataSize symbols type count reloOffset).bind fun err =>
                if err then some true
                else
                  match addSection ulongMax dataSize total with
                  | none => some true
                  | some total =>
                    sectionsLoop ulongMax f strtab strtabSize symbols type left (i + 1) total

/-- `validate_obj`: whether it refuses the file, and the type that it keeps in
`type` from then on. -/
def validateObj (ulongMax type : Nat) (f : OFile) : Option (Bool × Nat) :=
  if f.size < 20 then some (true, type)
  else
    (f.word? 0).bind fun magic =>
      if type ≠ 0 ∧ type ≠ magic then some (true, type)
      else if magic ≠ 0x014C ∧ magic ≠ 0x8664 then some (true, magic)
      else
        (f.byte? 16).bind fun c => (f.byte? 17).bind fun c' =>
          if c ≠ 0 ∨ c' ≠ 0 then some (true, magic)
          else
            (f.word? 2).bind fun sections =>
              if sections * 40 + 20 > f.size ∨ sections > 16384 then some (true, magic)
              else
                (f.dword? 12).bind fun symbols => (f.dword? 8).bind fun offset =>
                  (if symbols = 0 then some (false, 0)
                    else tablesErr ulongMax f symbols sections).bind fun tables =>
                    if tables.1 then some (true, magic)
                    else
                      (sectionsLoop ulongMax f (offset + symbols * 18) tables.2 symbols magic
                        sections 0 0).map (·, magic)

variable {f : OFile} {ulongMax : Nat}

/-! ## Reads inside -/

variable {i sym strtabSize sections : Nat}

theorem byte?_eq (h : i < f.size) : f.byte? i = some (f.data i).toNat := if_pos h

theorem word?_eq (h : i + 2 ≤ f.size) : f.word? i = some (f.data.word i) := if_pos h

theorem dword?_eq (h : i + 4 ≤ f.size) : f.dword? i = some (f.data.dword i) := if_pos h

def Inside (c : Option Bool) : Prop := ∃ e, c = some e

theorem inside_some (e : Bool) : Inside (some e) := ⟨e, rfl⟩

theorem anyErr_inside {cs : List (Option Bool)} (h : ∀ c ∈ cs, Inside c) : Inside (anyErr cs) := by
  induction cs with
  | nil => exact inside_some false
  | cons c cs ih =>
    obtain ⟨e, he⟩ := h c mem_cons_self
    obtain ⟨e', he'⟩ := ih fun c' hc' => h c' (.tail _ hc')
    rw [anyErr, he, bind_some, he']
    exact inside_some _

theorem anyErr_false {cs : List (Option Bool)} :
    anyErr cs = some false ↔ ∀ c ∈ cs, c = some false := by
  induction cs with
  | nil => exact ⟨fun _ c hc => absurd hc not_mem_nil, fun _ => rfl⟩
  | cons c cs ih =>
    rw [anyErr, forall_mem_cons, ← ih]
    rcases c with _ | e
    · simp
    · rcases anyErr cs with _ | e'
      · simp
      · simp

def EndsIn (f : OFile) (p last : Nat) : Prop := ∃ k, p ≤ k ∧ k < last ∧ last ≤ f.size ∧ f.data k = 0

variable {name : List UInt8} {j : Nat}

theorem startsWith_inside : ∀ {p : Nat}, (0 : UInt8) ∉ name →
    (∃ last, EndsIn f p last) ∨ p + name.length ≤ f.size → Inside (startsWith f name p) := by
  induction name with
  | nil => exact fun _ _ => ⟨true, rfl⟩
  | cons c name ih =>
    intro p hzero h
    rw [mem_cons, not_or] at hzero
    have hp : p < f.size := by
      rcases h with ⟨last, k, hk⟩ | h
      · omega
      · rw [length_cons] at h
        omega
    rw [startsWith, byte?_eq hp, bind_some]
    by_cases hc : (f.data p).toNat ≠ c.toNat
    · rw [if_pos hc]
      exact inside_some false
    rw [if_neg hc]
    rw [not_not] at hc
    refine ih hzero.2 ?_
    rcases h with ⟨last, k, hpk, hlast, hsize, hk⟩ | h
    · refine .inl ⟨last, k, ?_, hlast, hsize, hk⟩
      rcases eq_or_lt_of_le hpk with rfl | hlt
      · rw [hk] at hc
        exact absurd (UInt8.toNat_inj.mp hc) hzero.1
      · exact hlt
    · rw [length_cons] at h
      omega

theorem validateName_inside {p flags : Nat} (h : (∃ last, EndsIn f p last) ∨ p + 8 ≤ f.size) :
    Inside (validateName f p flags) := by
  have hname : ∀ name : List UInt8, (0 : UInt8) ∉ name → name.length ≤ 8 → ∀ bits,
      Inside (nameErr f p flags name bits) := by
    intro name hzero hlen bits
    obtain ⟨e, he⟩ := startsWith_inside hzero (h.imp_right fun h => by omega)
    rw [nameErr, he]
    exact inside_some _
  refine anyErr_inside ?_
  simp only [forall_mem_cons]
  exact ⟨hname _ (by decide) (by decide) _, hname _ (by decide) (by decide) _,
    hname _ (by decide) (by decide) _, hname _ (by decide) (by decide) _,
    fun c hc => absurd hc not_mem_nil⟩

/-! ## Symbols -/

theorem firstZero_inside : ∀ {left i : Nat}, sym + (i + left) ≤ f.size →
    ∃ k, firstZero f sym left i = some k ∧ k ≤ i + left := by
  intro left
  induction left with
  | zero => exact fun _ => ⟨_, rfl, le_rfl⟩
  | succ left ih =>
    intro i h
    rw [firstZero, byte?_eq (by omega), bind_some]
    split
    · simp
    · obtain ⟨k, hk, hle⟩ := ih (i := i + 1) (by omega)
      exact ⟨k, hk, by omega⟩

theorem restErr_inside : ∀ {left i : Nat}, sym + (i + left) ≤ f.size →
    Inside (restErr f sym left i) := by
  intro left
  induction left with
  | zero => exact fun _ => inside_some false
  | succ left ih =>
    intro i h
    obtain ⟨e, he⟩ := ih (i := i + 1) (by omega)
    rw [restErr, byte?_eq (by omega), bind_some, he]
    exact inside_some _

theorem symbolErr_inside (h : sym + 18 ≤ f.size) :
    Inside (symbolErr f sym strtabSize sections) := by
  refine anyErr_inside ?_
  rw [byte?_eq (by omega), byte?_eq (i := sym + 17) (by omega),
    byte?_eq (by omega), word?_eq (by omega), dword?_eq (i := sym) (by omega),
    dword?_eq (by omega), dword?_eq (i := sym + 8) (by omega)]
  simp only [forall_mem_cons, bind_some]
  refine ⟨inside_some _, ?_, inside_some _, ?_, ?_, ?_, fun c hc => absurd hc not_mem_nil⟩
  · split <;> exact inside_some _
  · split <;> exact inside_some _
  · split
    · exact inside_some _
    · obtain ⟨k, hk, hle⟩ := @firstZero_inside f sym 8 0 (by omega)
      rw [hk, bind_some]
      exact restErr_inside (by omega)
  · split <;> exact inside_some _

theorem symbolErr_name (h : sym + 18 ≤ f.size)
    (hok : symbolErr f sym strtabSize sections = some false) (hlong : f.data.dword sym = 0) :
    4 ≤ f.data.dword (sym + 4) ∧ f.data.dword (sym + 4) < strtabSize := by
  have hname := anyErr_false.mp hok _ (.tail _ mem_cons_self)
  rw [dword?_eq (by omega), dword?_eq (i := sym + 4) (by omega), bind_some,
    hlong] at hname
  simp at hname
  omega

/-- The number of the extra records of a symbol. -/
def extra (f : OFile) (i : Nat) : Nat := (f.data (f.data.dword 8 + i * 18 + 17)).toNat

/-- The records from `i` on that are reached by stepping over extra records. -/
inductive Reached (f : OFile) (i : Nat) : Nat → Prop
  | refl : Reached f i i
  | next {j : Nat} (reached : Reached f i j) (lt : j < f.data.dword 12) :
      Reached f i (j + extra f j + 1)

theorem Reached.head : Reached f i j ↔
    j = i ∨ i < f.data.dword 12 ∧ Reached f (i + extra f i + 1) j := by
  constructor
  · intro h
    induction h with
    | refl => exact .inl rfl
    | @next j reached lt ih =>
      rcases ih with rfl | ⟨hi, hr⟩
      · exact .inr ⟨lt, .refl⟩
      · exact .inr ⟨hi, .next hr lt⟩
  · rintro (rfl | ⟨hi, h⟩)
    · exact .refl
    · induction h with
      | refl => exact .next .refl hi
      | next _ lt ih => exact .next ih lt

theorem symbolsLoop_spec (htable : f.data.dword 8 + f.data.dword 12 * 18 ≤ f.size) :
    ∀ {rounds i : Nat},
    f.data.dword 12 ≤ i + rounds →
    Inside (symbolsLoop f (f.data.dword 8) (f.data.dword 12) strtabSize sections rounds i) ∧
      (symbolsLoop f (f.data.dword 8) (f.data.dword 12) strtabSize sections rounds i = some false ↔
        (∀ j, Reached f i j → j < f.data.dword 12 →
          symbolErr f (f.data.dword 8 + j * 18) strtabSize sections = some false) ∧
        Reached f i (f.data.dword 12)) := by
  -- behind the last record
  have hend : ∀ {i : Nat}, f.data.dword 12 ≤ i → (decide (i ≠ f.data.dword 12) = false ↔
        (∀ j, Reached f i j → j < f.data.dword 12 →
          symbolErr f (f.data.dword 8 + j * 18) strtabSize sections = some false) ∧
        Reached f i (f.data.dword 12)) := by
    intro i hi
    rw [decide_eq_false_iff_not, not_not]
    constructor
    · rintro rfl
      refine ⟨fun j hj hlt => ?_, .refl⟩
      rcases Reached.head.mp hj with rfl | ⟨h, -⟩
      · omega
      · omega
    · rintro ⟨-, h⟩
      rcases Reached.head.mp h with h | ⟨h, -⟩
      · exact h.symm
      · omega
  intro rounds
  induction rounds with
  | zero =>
    intro i h
    rw [symbolsLoop, some.injEq]
    exact ⟨inside_some _, hend (by omega)⟩
  | succ rounds ih =>
    intro i h
    rw [symbolsLoop]
    by_cases hi : i < f.data.dword 12
    · rw [if_pos hi]
      have hin : f.data.dword 8 + i * 18 + 18 ≤ f.size := by omega
      obtain ⟨e, he⟩ := @symbolErr_inside _ _ strtabSize sections hin
      rw [he, bind_some]
      cases e with
      | true =>
        refine ⟨inside_some _, fun h => (by cases h), fun h => ?_⟩
        have := h.1 i .refl hi
        rw [he] at this
        cases this
      | false =>
        rw [if_neg Bool.noConfusion, byte?_eq (by omega), bind_some]
        have hrest := ih (i := i + extra f i + 1) (by omega)
        refine ⟨hrest.1, hrest.2.trans ?_⟩
        constructor
        · rintro ⟨hall, hr⟩
          refine ⟨fun j hj hlt => ?_, Reached.head.mpr (.inr ⟨hi, hr⟩)⟩
          rcases Reached.head.mp hj with rfl | ⟨-, hj⟩
          · exact he
          · exact hall j hj hlt
        · rintro ⟨hall, hr⟩
          refine ⟨fun j hj hlt => hall j (Reached.head.mpr (.inr ⟨hi, hj⟩)) hlt, ?_⟩
          rcases Reached.head.mp hr with h | ⟨-, hr⟩
          · omega
          · exact hr
    · rw [if_neg hi, some.injEq]
      exact ⟨inside_some _, hend (by omega)⟩

/-- A relocation whose target is inside of the data of its section. -/
structure RelocOk (f : OFile) (ptr dataSize symbols type : Nat) : Prop where
  width : 0 < relocWidth type (f.data.word (ptr + 8))
  target : f.data.dword ptr + relocWidth type (f.data.word (ptr + 8)) ≤ dataSize
  symbol : f.data.dword (ptr + 4) < symbols

theorem relocWidth_le (arch type : Nat) : relocWidth arch type ≤ 9 := by
  unfold relocWidth
  grind

theorem relocErr_inside {ptr dataSize symbols type : Nat} (h : ptr + 10 ≤ f.size) :
    Inside (relocErr ulongMax f ptr dataSize symbols type) := by
  rw [relocErr, dword?_eq (by omega), dword?_eq (i := ptr + 4) (by omega),
    word?_eq (by omega), bind_some, bind_some, bind_some]
  refine anyErr_inside ?_
  simp only [forall_mem_cons]
  exact ⟨inside_some _, inside_some _, inside_some _, inside_some _,
    fun c hc => absurd hc not_mem_nil⟩

theorem and_sign {n : Nat} (h : n < 2 ^ 32) : n &&& 0x80000000 = 0 ↔ n < 2 ^ 31 := by
  rw [show 0x80000000 = 2 ^ 32 - 2 ^ 31 by decide, and_high_bits (by decide) h]
  omega

theorem relocErr_ok {ptr dataSize symbols type : Nat} (hmax : 2 ^ 32 ≤ ulongMax + 1)
    (h : ptr + 10 ≤ f.size) (hok : relocErr ulongMax f ptr dataSize symbols type = some false) :
    RelocOk f ptr dataSize symbols type := by
  rw [relocErr, dword?_eq (by omega), dword?_eq (i := ptr + 4) (by omega),
    word?_eq (by omega), bind_some, bind_some, bind_some] at hok
  have hall := anyErr_false.mp hok
  simp only [forall_mem_cons, some.injEq, decide_eq_false_iff_not, not_not] at hall
  obtain ⟨hwidth, hbit, htarget, hsymbol, -⟩ := hall
  have hlt := (and_sign Bytes.dword_lt).mp hbit
  have hle := relocWidth_le type (f.data.word (ptr + 8))
  rw [Nat.mod_eq_of_lt (by omega)] at htarget
  exact ⟨by omega, by omega, by omega⟩

theorem relocLoop_spec {dataSize symbols type : Nat} : ∀ {left ptr : Nat},
    ptr + left * 10 ≤ f.size →
    Inside (relocLoop ulongMax f dataSize symbols type left ptr) ∧
      (relocLoop ulongMax f dataSize symbols type left ptr = some false ↔
        ∀ r < left, relocErr ulongMax f (ptr + r * 10) dataSize symbols type = some false) := by
  intro left
  induction left with
  | zero =>
    intro ptr _
    exact ⟨inside_some _, fun _ r hr => absurd hr (Nat.not_lt_zero r), fun _ => rfl⟩
  | succ left ih =>
    intro ptr h
    obtain ⟨e, he⟩ := @relocErr_inside f ulongMax ptr dataSize symbols type (by omega)
    rw [relocLoop, he, bind_some]
    cases e with
    | true =>
      refine ⟨inside_some _, fun h => (by cases h), fun h => ?_⟩
      have := h 0 (Nat.succ_pos left)
      rw [zero_mul, add_zero, he] at this
      cases this
    | false =>
      obtain ⟨hin, hiff⟩ := @ih (ptr + 10) (by omega)
      refine ⟨hin, hiff.trans ?_⟩
      constructor
      · intro hall r hr
        cases r with
        | zero => rwa [zero_mul, add_zero]
        | succ r =>
          have := hall r (by omega)
          rwa [show ptr + 10 + r * 10 = ptr + (r + 1) * 10 by omega] at this
      · intro hall r hr
        have := hall (r + 1) (by omega)
        rwa [show ptr + (r + 1) * 10 = ptr + 10 + r * 10 by omega] at this

/-! ## Headers -/

/-- A string table that is inside and ends with a zero, or none. -/
def StringsOk (f : OFile) (strtab strtabSize : Nat) : Prop :=
  strtabSize = 0 ∨ strtab + strtabSize ≤ f.size ∧ f.data (strtab + strtabSize - 1) = 0

theorem StringsOk.endsIn {strtab strtabSize pos : Nat} (h : StringsOk f strtab strtabSize)
    (hpos : pos < strtabSize) : EndsIn f (strtab + pos) (strtab + strtabSize) := by
  rcases h with h | ⟨hsize, hzero⟩
  · omega
  · exact ⟨strtab + strtabSize - 1, by omega, by omega, hsize, hzero⟩

theorem nameNumber_inside {s : Nat} : ∀ {left j : Nat} {err : Bool} {offset : Nat},
    s + (j + left) ≤ f.size → ∃ e pos, nameNumber ulongMax f s left j err offset = some (e, pos) := by
  intro left
  induction left with
  | zero => exact fun _ => ⟨_, _, rfl⟩
  | succ left ih =>
    intro j err offset h
    rw [nameNumber, byte?_eq (by omega), bind_some]
    split
    · simp
    · exact ih (by omega)

/-- The offset that a section name gives with a slash. -/
def nameOffset (ulongMax : Nat) (f : OFile) (s : Nat) : Nat :=
  ((nameNumber ulongMax f s 7 1 ((f.data (s + 1)).toNat < 0x31) 0).map Prod.snd).getD 0

theorem sectionNameErr_inside {strtab strtabSize s flags : Nat}
    (hstr : StringsOk f strtab strtabSize) (h : s + 40 ≤ f.size) :
    Inside (sectionNameErr ulongMax f strtab strtabSize s flags) := by
  rw [sectionNameErr, byte?_eq (by omega), bind_some]
  split
  · rw [byte?_eq (by omega), bind_some]
    obtain ⟨e, pos, hnum⟩ := @nameNumber_inside f ulongMax s 7 1
      (decide ((f.data (s + 1)).toNat < 0x31)) 0 (by omega)
    rw [hnum, bind_some]
    split
    · next hpos =>
        obtain ⟨e', he'⟩ := @validateName_inside f _ flags
          (.inl ⟨_, hstr.endsIn hpos⟩)
        rw [he']
        exact inside_some _
    · exact inside_some _
  · exact validateName_inside (.inr (by omega))

theorem sectionNameErr_offset {strtab strtabSize s flags : Nat} (h : s + 40 ≤ f.size)
    (hok : sectionNameErr ulongMax f strtab strtabSize s flags = some false)
    (hslash : f.data s = 0x2F) : nameOffset ulongMax f s < strtabSize := by
  rw [sectionNameErr, byte?_eq (by omega), bind_some, hslash, if_pos (by decide),
    byte?_eq (by omega), bind_some] at hok
  obtain ⟨e, pos, hnum⟩ := @nameNumber_inside f ulongMax s 7 1
    (decide ((f.data (s + 1)).toNat < 0x31)) 0 (by omega)
  rw [nameOffset, hnum]
  rw [hnum, bind_some] at hok
  by_cases hpos : pos < strtabSize
  · exact hpos
  · rw [if_neg hpos] at hok
    cases hok

theorem headerErr_inside {strtab strtabSize s : Nat} (hstr : StringsOk f strtab strtabSize)
    (h : s + 40 ≤ f.size) : Inside (headerErr ulongMax f strtab strtabSize s) := by
  rw [headerErr, dword?_eq (by omega), dword?_eq (i := s + 20) (by omega),
    dword?_eq (by omega), word?_eq (by omega), dword?_eq (i := s + 36) (by omega),
    dword?_eq (by omega)]
  refine anyErr_inside ?_
  simp only [forall_mem_cons]
  exact ⟨sectionNameErr_inside hstr h, inside_some _, inside_some _, inside_some _, inside_some _,
    inside_some _, inside_some _, inside_some _, inside_some _,
    fun c hc => absurd hc not_mem_nil⟩

/-- The fields of a section that are accepted: its data, unless it has none in
the file, and its relocations are inside. -/
structure HeaderOk (ulongMax : Nat) (f : OFile) (strtab strtabSize s : Nat) : Prop where
  name : sectionNameErr ulongMax f strtab strtabSize s (f.data.dword (s + 36)) = some false
  data : f.data.dword (s + 36) &&& 0x80 = 0 →
    f.data.dword (s + 20) + f.data.dword (s + 16) ≤ f.size
  relocs : f.data.dword (s + 24) + f.data.word (s + 32) * 10 ≤ f.size
  bss : f.data.dword (s + 36) &&& 0x80 ≠ 0 → f.data.word (s + 32) = 0

theorem headerErr_ok {strtab strtabSize s : Nat} (hmax : 2 ^ 32 ≤ ulongMax + 1)
    (h : s + 40 ≤ f.size) (hok : headerErr ulongMax f strtab strtabSize s = some false) :
    HeaderOk ulongMax f strtab strtabSize s := by
  rw [headerErr, dword?_eq (by omega), dword?_eq (i := s + 20) (by omega),
    dword?_eq (by omega), word?_eq (by omega), dword?_eq (i := s + 36) (by omega),
    dword?_eq (by omega)] at hok
  have hall := anyErr_false.mp hok
  simp only [forall_mem_cons, some.injEq, decide_eq_false_iff_not, Bool.and_eq_false_iff] at hall
  obtain ⟨hname, -, hbss, -, hdata, hdatasum, hrelo, hrelosum, -, -⟩ := hall
  have hoff : f.data.dword (s + 20) < 2 ^ 32 := Bytes.dword_lt
  have hrel : f.data.dword (s + 24) < 2 ^ 32 := Bytes.dword_lt
  rw [Nat.mod_eq_of_lt (by omega)] at hdatasum hrelosum
  refine ⟨hname, fun hflag => ?_, by omega, fun hflag => ?_⟩
  · rcases hdatasum with hle | hne
    · omega
    · omega
  · rw [bssErr, if_pos hflag] at hbss
    simp at hbss
    omega

/-- The names of the sections whose data is copied. -/
def copiedNames : List (List UInt8) := [textName, rdataName, dataName]

theorem startsWith_of_sameName : ∀ {n p : Nat}, name.length ≤ n →
    p + n ≤ f.size → sameName n f.data p name = true → startsWith f name p = some true := by
  induction name with
  | nil => exact fun _ _ _ => rfl
  | cons c name ih =>
    intro n p hlen hsize hsame
    rw [length_cons] at hlen
    obtain ⟨n, rfl⟩ : ∃ k, n = k + 1 := ⟨n - 1, by omega⟩
    rw [sameName, Bool.and_eq_true, decide_eq_true_eq] at hsame
    rw [startsWith, byte?_eq (by omega), bind_some,
      if_neg (not_not.mpr (congrArg UInt8.toNat hsame.1))]
    exact ih (by omega) (by omega) hsame.2

theorem and_category {flags bits : Nat} (h : flags &&& 0xF0 = bits) :
    flags &&& 0x80 = bits &&& 0x80 := by
  rw [← h, Nat.and_assoc]
  rfl

theorem HeaderOk.copied {strtab strtabSize s : Nat} (hok : HeaderOk ulongMax f strtab strtabSize s)
    (h : s + 40 ≤ f.size) (hname : name ∈ copiedNames) (hsame : sameName 8 f.data s name = true) :
    f.data.dword (s + 36) &&& 0x80 = 0 := by
  have herr := hok.name
  have hdot : f.data s = 46 := by
    rcases mem_cons.mp hname with rfl | hname
    · exact of_decide_eq_true (Bool.and_eq_true_iff.mp hsame).1
    · rcases mem_cons.mp hname with rfl | hname
      · exact of_decide_eq_true (Bool.and_eq_true_iff.mp hsame).1
      · rw [mem_singleton.mp hname] at hsame
        exact of_decide_eq_true (Bool.and_eq_true_iff.mp hsame).1
  rw [sectionNameErr, byte?_eq (by omega), bind_some, hdot, if_neg (by decide)] at herr
  have hall := anyErr_false.mp herr
  simp only [forall_mem_cons] at hall
  obtain ⟨htext, hrdata, hdata, -, -⟩ := hall
  have hflags : ∀ {bits : Nat}, name.length ≤ 8 → bits &&& 0x80 = 0 →
      nameErr f s (f.data.dword (s + 36)) name bits = some false →
      f.data.dword (s + 36) &&& 0x80 = 0 := by
    intro bits hlen hbits hnone
    rw [nameErr, startsWith_of_sameName hlen (by omega) hsame] at hnone
    rw [and_category (of_not_not fun hne => ?_), hbits]
    simp [hne] at hnone
  rcases mem_cons.mp hname with rfl | hname
  · exact hflags (by decide) (by decide) htext
  · rcases mem_cons.mp hname with rfl | hname
    · exact hflags (by decide) (by decide) hrdata
    · obtain rfl := mem_singleton.mp hname
      exact hflags (by decide) (by decide) hdata

/-- A section whose header and relocations are accepted. -/
structure SectionFine (ulongMax : Nat) (f : OFile) (strtab strtabSize symbols type j : Nat) :
    Prop where
  header : headerErr ulongMax f strtab strtabSize (sect j) = some false
  relocs : ∀ r < f.data.word (sect j + 32), relocErr ulongMax f
    (f.data.dword (sect j + 24) + r * 10) (f.data.dword (sect j + 16)) symbols type = some false

/-- The sizes of the data of sections, each with its header. -/
def sizesFrom (f : OFile) (i left : Nat) : Nat :=
  ((range' i left).map fun j => f.data.dword (sect j + 16) + 40).sum

theorem sizesFrom_succ {i left : Nat} : sizesFrom f i (left + 1) =
    f.data.dword (sect i + 16) + 40 + sizesFrom f (i + 1) left := by
  rfl

theorem addSection_eq {dataSize total : Nat} (hmax : 2 ^ 32 ≤ ulongMax + 1) :
    addSection ulongMax dataSize total =
      if total + (dataSize + 40) < INT_MAX then some (total + (dataSize + 40)) else none := by
  have hint : INT_MAX = 2 ^ 31 - 1 := rfl
  rw [addSection]
  split
  · rw [if_neg (by omega)]
  split
  · split
    · rw [if_pos (by omega)]
    · rw [if_neg (by omega)]
  · rw [if_neg (by omega)]

theorem sectionsLoop_spec {strtab strtabSize symbols type : Nat} (hmax : 2 ^ 32 ≤ ulongMax + 1)
    (hstr : StringsOk f strtab strtabSize) : ∀ {left i total : Nat},
    20 + (i + left) * 40 ≤ f.size → total < INT_MAX →
    Inside (sectionsLoop ulongMax f strtab strtabSize symbols type left i total) ∧
      (sectionsLoop ulongMax f strtab strtabSize symbols type left i total = some false ↔
        (∀ j, i ≤ j → j < i + left → SectionFine ulongMax f strtab strtabSize symbols type j) ∧
        total + sizesFrom f i left < INT_MAX) := by
  intro left
  induction left with
  | zero =>
    intro i total _ htotal
    exact ⟨inside_some _, fun _ => ⟨fun j hj hlt => absurd hj (not_le.mpr hlt), htotal⟩,
      fun _ => rfl⟩
  | succ left ih =>
    intro i total hsize htotal
    have hin : sect i + 40 ≤ f.size := by
      rw [sect]
      omega
    rw [sectionsLoop]
    obtain ⟨e, he⟩ := @headerErr_inside _ ulongMax _ _ _ hstr hin
    rw [he, bind_some]
    cases e with
    | true =>
      refine ⟨inside_some _, fun h => (by cases h), fun h => ?_⟩
      have := (h.1 i (le_refl i) (by omega)).header
      rw [he] at this
      cases this
    | false =>
      have hok := headerErr_ok hmax hin he
      rw [if_neg Bool.noConfusion, dword?_eq (by omega),
        dword?_eq (i := sect i + 24) (by omega), word?_eq (by omega), bind_some,
        bind_some, bind_some]
      obtain ⟨⟨e', he'⟩, hrelocs⟩ := @relocLoop_spec _ ulongMax (f.data.dword (sect i + 16))
        symbols type _ _ hok.relocs
      rw [he', bind_some]
      rw [he'] at hrelocs
      cases e' with
      | true =>
        refine ⟨inside_some _, fun h => (by cases h), fun h => ?_⟩
        have := hrelocs.mpr (h.1 i (le_refl i) (by omega)).relocs
        cases this
      | false =>
        rw [if_neg Bool.noConfusion, addSection_eq hmax, sizesFrom_succ]
        by_cases hadd : total + (f.data.dword (sect i + 16) + 40) < INT_MAX
        · rw [if_pos hadd]
          obtain ⟨hrest, hiff⟩ := ih (i := i + 1) (by omega) hadd
          refine ⟨hrest, hiff.trans ?_⟩
          constructor
          · rintro ⟨hall, hsum⟩
            refine ⟨fun j hj hlt => ?_, by omega⟩
            rcases eq_or_lt_of_le hj with rfl | hj
            · exact ⟨he, hrelocs.mp rfl⟩
            · exact hall j hj (by omega)
          · rintro ⟨hall, hsum⟩
            exact ⟨fun j hj hlt => hall j (by omega) (by omega), by omega⟩
        · rw [if_neg hadd]
          refine ⟨inside_some _, fun h => (by cases h), fun h => ?_⟩
          omega

variable {ulongMax type : Nat}

/-! ## The tables of a file -/

/-- The place of the symbol `j`. -/
def symbolAt (f : OFile) (j : Nat) : Nat := f.data.dword 8 + j * 18

def strtabAt (f : OFile) : Nat := f.data.dword 8 + f.data.dword 12 * 18

/-- The size of the string table; without symbols there is none. -/
def strtabSizeOf (f : OFile) : Nat :=
  if f.data.dword 12 = 0 then 0 else f.data.dword (strtabAt f)

/-- The header, as `validate_obj` checks it. -/
structure HeadOk (type : Nat) (f : OFile) : Prop where
  length : 20 ≤ f.size
  same : type = 0 ∨ type = f.data.word 0
  kind : f.data.word 0 = 0x014C ∨ f.data.word 0 = 0x8664
  noOptional : (f.data 16).toNat = 0 ∧ (f.data 17).toNat = 0
  table : f.data.word 2 * 40 + 20 ≤ f.size
  limit : f.data.word 2 ≤ 16384

/-- The symbols and the string table behind them. -/
structure TablesOk (f : OFile) : Prop where
  count : f.data.dword 12 < 0x00FFFFFF
  strings : 4 ≤ f.data.dword (strtabAt f)
  inside : strtabAt f + f.data.dword (strtabAt f) ≤ f.size
  zero : f.data (strtabAt f + f.data.dword (strtabAt f) - 1) = 0
  symbols : ∀ j, Reached f 0 j → j < f.data.dword 12 →
    symbolErr f (symbolAt f j) (f.data.dword (strtabAt f)) (f.data.word 2) = some false
  ends : Reached f 0 (f.data.dword 12)

/-- What an accepted file satisfies. -/
structure Valid (ulongMax type : Nat) (f : OFile) : Prop where
  head : HeadOk type f
  tables : f.data.dword 12 ≠ 0 → TablesOk f
  sections : ∀ j < f.data.word 2, SectionFine ulongMax f (strtabAt f) (strtabSizeOf f)
    (f.data.dword 12) (f.data.word 0) j
  sizes : sizesFrom f 0 (f.data.word 2) < INT_MAX

/-- The size of the string table is inside if the symbols are. -/
def SizeInside (f : OFile) : Prop :=
  f.data.dword 12 ≠ 0 → f.data.dword 12 < 0x00FFFFFF → strtabAt f ≤ f.size →
    strtabAt f + 4 ≤ f.size

theorem tablesErr_eq (hlen : 20 ≤ f.size) (hsize : f.size < 2 ^ 31) (hmax : 2 ^ 32 ≤ ulongMax + 1) :
    tablesErr ulongMax f (f.data.dword 12) (f.data.word 2) =
      if f.data.dword 12 ≥ 0x00FFFFFF ∨ strtabAt f > f.size then some (true, 0)
      else
        (f.dword? (strtabAt f)).bind fun strtabSize =>
          if strtabSize < 4 ∨ strtabAt f + strtabSize > f.size then some (true, strtabSize)
          else
            (f.byte? (strtabAt f + strtabSize - 1)).bind fun last =>
              if last ≠ 0 then some (true, strtabSize)
              else
                (symbolsLoop f (f.data.dword 8) (f.data.dword 12) strtabSize (f.data.word 2)
                  (f.data.dword 12) 0).map (·, strtabSize) := by
  have hstrtab : strtabAt f = f.data.dword 8 + f.data.dword 12 * 18 := rfl
  rw [tablesErr, dword?_eq (by omega), bind_some]
  by_cases hcount : f.data.dword 12 ≥ 0x00FFFFFF
  · exact (if_pos (.inl hcount)).trans (if_pos (.inl hcount)).symm
  simp only [if_pos (lt_of_not_ge hcount), ← hstrtab]
  by_cases hfit : f.data.dword 8 > ulongMax - f.data.dword 12 * 18
  · rw [if_pos (.inr (.inl hfit)), if_pos (.inr (by omega))]
  have hmod : strtabAt f % (ulongMax + 1) = strtabAt f := Nat.mod_eq_of_lt (by omega)
  rw [hmod]
  by_cases hin : strtabAt f > f.size
  · rw [if_pos (.inr (.inr hin)), if_pos (.inr hin)]
  rw [if_neg (by omega), if_neg (by omega), if_neg (by omega)]
  by_cases hword : strtabAt f + 4 ≤ f.size
  · have hlt : f.data.dword (strtabAt f) < 2 ^ 32 := Bytes.dword_lt
    rw [dword?_eq hword, bind_some, bind_some]
    by_cases hsum : strtabAt f > ulongMax - f.data.dword (strtabAt f)
    · rw [if_pos (.inr (.inl hsum)), if_pos (.inr (by omega))]
    · rw [Nat.mod_eq_of_lt (by omega)]
      exact if_congr (by omega) rfl rfl
  · have hout : f.dword? (strtabAt f) = none := if_neg hword
    simp [hout]

/-- With the size of the string table inside, the checks of the tables read
inside of the buffer. -/
theorem tablesErr_spec (hlen : 20 ≤ f.size) (hsize : f.size < 2 ^ 31)
    (hmax : 2 ^ 32 ≤ ulongMax + 1) (hsym : f.data.dword 12 ≠ 0) :
    (tablesErr ulongMax f (f.data.dword 12) (f.data.word 2) = none ↔ ¬ SizeInside f) ∧
      (∀ size, tablesErr ulongMax f (f.data.dword 12) (f.data.word 2) = some (false, size) ↔
        TablesOk f ∧ size = f.data.dword (strtabAt f)) := by
  rw [tablesErr_eq hlen hsize hmax]
  by_cases htable : f.data.dword 12 ≥ 0x00FFFFFF ∨ strtabAt f > f.size
  · rw [if_pos htable]
    refine ⟨⟨fun h => (by cases h), fun h => absurd (fun _ hcount hle => ?_) h⟩,
      fun size => ⟨fun h => (by cases h), fun h => ?_⟩⟩
    · omega
    · have hcount := h.1.count
      have hinside := h.1.inside
      omega
  rw [if_neg htable]
  by_cases hin : strtabAt f + 4 ≤ f.size
  · have hsizeIn : SizeInside f := fun _ _ _ => hin
    rw [dword?_eq hin, bind_some]
    by_cases hstrings : f.data.dword (strtabAt f) < 4 ∨
        strtabAt f + f.data.dword (strtabAt f) > f.size
    · rw [if_pos hstrings]
      refine ⟨⟨fun h => (by cases h), fun h => absurd hsizeIn h⟩,
        fun size => ⟨fun h => (by cases h), fun h => ?_⟩⟩
      have hfour := h.1.strings
      have hinside := h.1.inside
      omega
    rw [if_neg hstrings, byte?_eq (by omega), bind_some]
    by_cases hzero : (f.data (strtabAt f + f.data.dword (strtabAt f) - 1)).toNat ≠ 0
    · rw [if_pos hzero]
      refine ⟨⟨fun h => (by cases h), fun h => absurd hsizeIn h⟩,
        fun size => ⟨fun h => (by cases h), fun h => ?_⟩⟩
      exact absurd (congrArg UInt8.toNat h.1.zero) hzero
    rw [if_neg hzero]
    have hfits : f.data.dword 8 + f.data.dword 12 * 18 ≤ f.size := by
      rw [← strtabAt]
      omega
    obtain ⟨⟨e, he⟩, hiff⟩ := @symbolsLoop_spec _ (f.data.dword (strtabAt f)) (f.data.word 2)
      hfits (f.data.dword 12) 0 (by omega)
    rw [he]
    rw [he] at hiff
    refine ⟨⟨fun h => (by cases h), fun h => absurd hsizeIn h⟩, fun size => ?_⟩
    constructor
    · intro h
      cases h
      obtain ⟨hall, hends⟩ := hiff.mp rfl
      exact ⟨⟨by omega, by omega, by omega, UInt8.toNat_inj.mp (not_not.mp hzero), hall, hends⟩,
        rfl⟩
    · rintro ⟨h, rfl⟩
      rw [some.inj (hiff.mpr ⟨h.symbols, h.ends⟩)]
      rfl
  · have hout : f.dword? (strtabAt f) = none := if_neg hin
    rw [hout, bind_none]
    refine ⟨⟨fun _ h => ?_, fun _ => rfl⟩, fun size => ⟨fun h => (by cases h), fun h => ?_⟩⟩
    · exact hin (h hsym (by omega) (by omega))
    · have hfour := h.1.strings
      have hinside := h.1.inside
      omega

theorem headOk_iff : HeadOk type f ↔ 20 ≤ f.size ∧ (type = 0 ∨ type = f.data.word 0) ∧
    (f.data.word 0 = 0x014C ∨ f.data.word 0 = 0x8664) ∧
    ((f.data 16).toNat = 0 ∧ (f.data 17).toNat = 0) ∧ f.data.word 2 * 40 + 20 ≤ f.size ∧
    f.data.word 2 ≤ 16384 :=
  ⟨fun h => ⟨h.length, h.same, h.kind, h.noOptional, h.table, h.limit⟩,
    fun h => ⟨h.1, h.2.1, h.2.2.1, h.2.2.2.1, h.2.2.2.2.1, h.2.2.2.2.2⟩⟩

theorem validateObj_head (h : HeadOk type f) : validateObj ulongMax type f =
    (if f.data.dword 12 = 0 then some (false, 0)
      else tablesErr ulongMax f (f.data.dword 12) (f.data.word 2)).bind fun tables =>
      if tables.1 then some (true, f.data.word 0)
      else
        (sectionsLoop ulongMax f (strtabAt f) tables.2 (f.data.dword 12) (f.data.word 0)
          (f.data.word 2) 0 0).map (·, f.data.word 0) := by
  have hkind := h.kind
  have hsame := h.same
  have hno := h.noOptional
  have htable := h.table
  have hlimit := h.limit
  rw [validateObj, if_neg (by omega), word?_eq (by omega), bind_some,
    if_neg (by omega), if_neg (by omega), byte?_eq (by omega), byte?_eq (by omega),
    bind_some, bind_some, if_neg (by omega), word?_eq (by omega), bind_some,
    if_neg (by omega), dword?_eq (by omega), dword?_eq (by omega), bind_some,
    bind_some]
  rfl

theorem validateObj_refused (h : ¬ HeadOk type f) :
    ∃ t, validateObj ulongMax type f = some (true, t) := by
  rw [headOk_iff] at h
  rw [validateObj]
  by_cases hlen : f.size < 20
  · exact ⟨_, if_pos hlen⟩
  rw [if_neg hlen, word?_eq (by omega), bind_some]
  by_cases hsame : type ≠ 0 ∧ type ≠ f.data.word 0
  · exact ⟨_, if_pos hsame⟩
  rw [if_neg hsame]
  by_cases hkind : f.data.word 0 ≠ 0x014C ∧ f.data.word 0 ≠ 0x8664
  · exact ⟨_, if_pos hkind⟩
  rw [if_neg hkind, byte?_eq (by omega), byte?_eq (by omega), bind_some, bind_some]
  by_cases hno : (f.data 16).toNat ≠ 0 ∨ (f.data 17).toNat ≠ 0
  · exact ⟨_, if_pos hno⟩
  rw [if_neg hno, word?_eq (by omega), bind_some]
  by_cases htable : f.data.word 2 * 40 + 20 > f.size ∨ f.data.word 2 > 16384
  · exact ⟨_, if_pos htable⟩
  omega

theorem TablesOk.stringsOk (h : TablesOk f) :
    StringsOk f (strtabAt f) (f.data.dword (strtabAt f)) := .inr ⟨h.inside, h.zero⟩

theorem Valid.stringsOk (h : Valid ulongMax type f) :
    StringsOk f (strtabAt f) (strtabSizeOf f) := by
  rw [strtabSizeOf]
  split
  · exact .inl rfl
  · next hsym => exact (h.tables hsym).stringsOk

/-- The checks read inside of the buffer, unless they read the size of the
string table outside. -/
theorem validateObj_none_iff (hsize : f.size < 2 ^ 31) (hmax : 2 ^ 32 ≤ ulongMax + 1) :
    validateObj ulongMax type f = none ↔ HeadOk type f ∧ ¬ SizeInside f := by
  by_cases hhead : HeadOk type f
  · have htable := hhead.table
    have hloop : ∀ {strtabSize : Nat}, StringsOk f (strtabAt f) strtabSize →
        Inside (sectionsLoop ulongMax f (strtabAt f) strtabSize (f.data.dword 12) (f.data.word 0)
          (f.data.word 2) 0 0) :=
      fun hstr => (sectionsLoop_spec hmax hstr (by omega) (by decide)).1
    rw [validateObj_head hhead]
    by_cases hsym : f.data.dword 12 = 0
    · rw [if_pos hsym, bind_some, if_neg Bool.noConfusion]
      obtain ⟨e, he⟩ := @hloop 0 (.inl rfl)
      rw [he]
      exact ⟨fun h => (by cases h), fun h => absurd (fun hne => absurd hsym hne) h.2⟩
    rw [if_neg hsym]
    obtain ⟨hnone, hok⟩ := tablesErr_spec hhead.length hsize hmax hsym
    rw [and_iff_right hhead, ← hnone]
    rcases htables : tablesErr ulongMax f (f.data.dword 12) (f.data.word 2) with _ | ⟨e, size⟩
    · rfl
    rw [bind_some]
    cases e with
    | true => exact ⟨fun h => (by cases h), fun h => (by cases h)⟩
    | false =>
      obtain ⟨hvalid, rfl⟩ := (hok size).mp htables
      obtain ⟨e, he⟩ := hloop hvalid.stringsOk
      rw [if_neg Bool.noConfusion, he]
      simp
  · obtain ⟨t, ht⟩ := @validateObj_refused _ ulongMax _ hhead
    rw [ht]
    exact ⟨fun h => (by cases h), fun h => absurd h.1 hhead⟩

theorem validateObj_accepts_iff (hsize : f.size < 2 ^ 31) (hmax : 2 ^ 32 ≤ ulongMax + 1) (t : Nat) :
    validateObj ulongMax type f = some (false, t) ↔ Valid ulongMax type f ∧ t = f.data.word 0 := by
  by_cases hhead : HeadOk type f
  · have htable := hhead.table
    have hloop : ∀ {strtabSize : Nat}, StringsOk f (strtabAt f) strtabSize → ∀ t,
        ((sectionsLoop ulongMax f (strtabAt f) strtabSize (f.data.dword 12) (f.data.word 0)
          (f.data.word 2) 0 0).map (·, f.data.word 0) = some (false, t) ↔
          ((∀ j < f.data.word 2, SectionFine ulongMax f (strtabAt f) strtabSize
            (f.data.dword 12) (f.data.word 0) j) ∧ sizesFrom f 0 (f.data.word 2) < INT_MAX) ∧
          t = f.data.word 0) := by
      intro strtabSize hstr t
      have hspec :=
        (@sectionsLoop_spec _ _ _ _ (f.data.dword 12) (f.data.word 0) hmax hstr (f.data.word 2) 0 0 (by omega) (by decide)).2
      simp only [zero_le, zero_add, true_implies] at hspec
      rw [← hspec, map_eq_some_iff]
      constructor
      · rintro ⟨e, he, heq⟩
        cases heq
        exact ⟨he, rfl⟩
      · rintro ⟨he, rfl⟩
        exact ⟨false, he, rfl⟩
    rw [validateObj_head hhead]
    by_cases hsym : f.data.dword 12 = 0
    · rw [if_pos hsym, bind_some, if_neg Bool.noConfusion, hloop (.inl rfl)]
      have hzero : strtabSizeOf f = 0 := if_pos hsym
      constructor
      · rintro ⟨⟨hall, hsum⟩, rfl⟩
        exact ⟨⟨hhead, fun hne => absurd hsym hne, by rwa [hzero], hsum⟩, rfl⟩
      · rintro ⟨hvalid, rfl⟩
        have hall := hvalid.sections
        rw [hzero] at hall
        exact ⟨⟨hall, hvalid.sizes⟩, rfl⟩
    · have hstrtab : strtabSizeOf f = f.data.dword (strtabAt f) := if_neg hsym
      rw [if_neg hsym]
      have hok := (tablesErr_spec hhead.length hsize hmax hsym).2
      constructor
      · intro h
        obtain ⟨⟨e, size⟩, htables, h⟩ := bind_eq_some_iff.mp h
        cases e with
        | true => cases h
        | false =>
          obtain ⟨hvalid, rfl⟩ := (hok size).mp htables
          obtain ⟨⟨hall, hsum⟩, rfl⟩ := (hloop hvalid.stringsOk t).mp h
          exact ⟨⟨hhead, fun _ => hvalid, by rwa [hstrtab], hsum⟩, rfl⟩
      · rintro ⟨hvalid, rfl⟩
        have htables := hvalid.tables hsym
        have hall := hvalid.sections
        rw [hstrtab] at hall
        rw [(hok _).mpr ⟨htables, rfl⟩, bind_some, if_neg Bool.noConfusion]
        exact (hloop htables.stringsOk _).mpr ⟨⟨hall, hvalid.sizes⟩, rfl⟩
  · obtain ⟨t', ht⟩ := @validateObj_refused _ ulongMax _ hhead
    rw [ht]
    exact ⟨fun h => (by cases h), fun h => absurd h.1.head hhead⟩

/-! ## What is looked up later -/

/-- What the linker looks up in a file is inside of its buffer. -/
structure Safe (ulongMax : Nat) (f : OFile) : Prop where
  headers : ∀ j < f.data.word 2, sect j + 40 ≤ f.size
  /-- the data of a section that has it in the file or is copied by its name -/
  data : ∀ j < f.data.word 2, (f.data.dword (sect j + 36) &&& 0x80 = 0 ∨
      ∃ name ∈ copiedNames, sameName 8 f.data (sect j) name = true) →
    f.data.dword (sect j + 20) + f.data.dword (sect j + 16) ≤ f.size
  relocs : ∀ j < f.data.word 2, ∀ r < f.data.word (sect j + 32),
    f.data.dword (sect j + 24) + r * 10 + 10 ≤ f.size
  /-- the target of a relocation, in its section, and the symbol -/
  targets : ∀ j < f.data.word 2, ∀ r < f.data.word (sect j + 32),
    let ptr := f.data.dword (sect j + 24) + r * 10
    let width := relocWidth (f.data.word 0) (f.data.word (ptr + 8))
    0 < width ∧ f.data.dword ptr + width ≤ f.data.dword (sect j + 16) ∧
      f.data.dword (sect j + 20) + f.data.dword ptr + width ≤ f.size ∧
      f.data.dword (ptr + 4) < f.data.dword 12 ∧ symbolAt f (f.data.dword (ptr + 4)) + 18 ≤ f.size
  /-- a symbol with its extra records -/
  symbols : ∀ j, Reached f 0 j → j < f.data.dword 12 → symbolAt f (j + extra f j + 1) ≤ f.size
  /-- also those of `get_long_name`: a link of more than `0x7FF0` records is
  stopped, so the 16 bits that keep an index are enough -/
  symbolNames : ∀ j, Reached f 0 j → j < f.data.dword 12 → f.data.dword (symbolAt f j) = 0 →
    EndsIn f (strtabAt f + f.data.dword (symbolAt f j + 4)) (strtabAt f + strtabSizeOf f)
  sectionNames : ∀ j < f.data.word 2, f.data (sect j) = 0x2F →
    EndsIn f (strtabAt f + nameOffset ulongMax f (sect j)) (strtabAt f + strtabSizeOf f)

theorem Reached.le {i j : Nat} (h : Reached f i j) : i ≤ j := by
  induction h with
  | refl => rfl
  | next _ _ ih => omega

theorem Reached.comparable {i j k : Nat} (hj : Reached f i j) (hk : Reached f i k) :
    Reached f j k ∨ Reached f k j := by
  induction hj with
  | refl => exact .inl hk
  | @next j _ lt ih =>
    rcases ih with hjk | hkj
    · rcases Reached.head.mp hjk with rfl | ⟨-, h⟩
      · exact .inr (.next .refl lt)
      · exact .inl h
    · exact .inr (.next hkj lt)

theorem TablesOk.extra_le (h : TablesOk f) (hj : Reached f 0 j) (hlt : j < f.data.dword 12) :
    j + extra f j + 1 ≤ f.data.dword 12 := by
  rcases Reached.comparable hj h.ends with hend | hend
  · rcases Reached.head.mp hend with hend | ⟨-, hend⟩
    · omega
    · exact hend.le
  · have := hend.le
    omega

theorem TablesOk.symbolAt_le (h : TablesOk f) (hj : j ≤ f.data.dword 12) :
    symbolAt f j ≤ f.size := by
  have hinside := h.inside
  rw [strtabAt] at hinside
  rw [symbolAt]
  omega

theorem TablesOk.symbolAt_lt (h : TablesOk f) (hj : j < f.data.dword 12) :
    symbolAt f j + 18 ≤ f.size := by
  have hle := h.symbolAt_le hj
  rw [symbolAt] at hle ⊢
  omega

theorem TablesOk.sizeOf_eq (hsym : f.data.dword 12 ≠ 0) :
    strtabSizeOf f = f.data.dword (strtabAt f) := if_neg hsym

theorem TablesOk.name_lt (h : TablesOk f) (hj : Reached f 0 j) (hlt : j < f.data.dword 12)
    (hlong : f.data.dword (symbolAt f j) = 0) :
    f.data.dword (symbolAt f j + 4) < f.data.dword (strtabAt f) :=
  (symbolErr_name (h.symbolAt_lt hlt) (h.symbols j hj hlt) hlong).2

/-- In a valid file all is inside. -/
theorem Valid.safe (hmax : 2 ^ 32 ≤ ulongMax + 1) (h : Valid ulongMax type f) :
    Safe ulongMax f := by
  have htable := h.head.table
  have hstr := h.stringsOk
  have hsect : ∀ j < f.data.word 2, sect j + 40 ≤ f.size := by
    intro j hj
    rw [sect]
    omega
  have hheader : ∀ j < f.data.word 2, HeaderOk ulongMax f (strtabAt f) (strtabSizeOf f) (sect j) :=
    fun j hj => headerErr_ok hmax (hsect j hj) (h.sections j hj).header
  have hreloc : ∀ j < f.data.word 2, ∀ r < f.data.word (sect j + 32),
      f.data.dword (sect j + 24) + r * 10 + 10 ≤ f.size := by
    intro j hj r hr
    have := (hheader j hj).relocs
    omega
  refine
    { headers := hsect
      data := fun j hj hdata => ?_
      relocs := hreloc
      targets := fun j hj r hr => ?_
      symbols := fun j hj hlt => ?_
      symbolNames := fun j hj hlt hlong => ?_
      sectionNames := fun j hj hslash => ?_ }
  · rcases hdata with hdata | ⟨name, hname, hsame⟩
    · exact (hheader j hj).data hdata
    · exact (hheader j hj).data ((hheader j hj).copied (hsect j hj) hname hsame)
  · have hok := relocErr_ok hmax (hreloc j hj r hr) ((h.sections j hj).relocs r hr)
    have hdata := (hheader j hj).data (of_not_not fun hflag => by
      have := (hheader j hj).bss hflag
      omega)
    have htarget := hok.target
    have hsymbol := hok.symbol
    exact ⟨hok.width, htarget, by omega, hsymbol, (h.tables (by omega)).symbolAt_lt hsymbol⟩
  · have htables := h.tables (by omega)
    exact htables.symbolAt_le (htables.extra_le hj hlt)
  · have htables := h.tables (by omega)
    have hlt' := htables.name_lt hj hlt hlong
    rw [← TablesOk.sizeOf_eq (by omega)] at hlt'
    exact hstr.endsIn hlt'
  · exact hstr.endsIn (sectionNameErr_offset (hsect j hj) (hheader j hj).name hslash)

/-- **Checks of an object file**: they read inside of the buffer and protect what
follows if and only if four bytes for the size of the string table are there
whenever its symbols are. -/
theorem validateObj_protects_iff (hsize : f.size < 2 ^ 31) (hmax : 2 ^ 32 ≤ ulongMax + 1) :
    (validateObj ulongMax type f ≠ none ∧
        ∀ t, validateObj ulongMax type f = some (false, t) → Safe ulongMax f) ↔
      (HeadOk type f → SizeInside f) := by
  rw [Ne, validateObj_none_iff hsize hmax, not_and, not_not]
  exact and_iff_left fun t ht => ((validateObj_accepts_iff hsize hmax t).mp ht).1.safe hmax

def ofBytes (bytes : List UInt8) : OFile := ⟨fun i => bytes.getD i 0, bytes.length, 0⟩

/-- A file without sections whose only symbol is external and has the name at
the offset 4 of the string table. -/
def oneSymbol (strings : List UInt8) : OFile :=
  ofBytes ([0x64, 0x86, 0, 0, 0, 0, 0, 0, 20, 0, 0, 0, 1, 0, 0, 0, 0, 0, 0, 0] ++
    [0, 0, 0, 0, 4, 0, 0, 0, 0, 0, 0, 0, 0, 0, 0, 0, 2, 0] ++ strings)

theorem validateObj_protects_long_name :
    validateObj (2 ^ 64 - 1) 0 (oneSymbol [7, 0, 0, 0, 97, 98, 0]) = some (false, 0x8664) ∧
      Safe (2 ^ 64 - 1) (oneSymbol [7, 0, 0, 0, 97, 98, 0]) := by
  have haccept : validateObj (2 ^ 64 - 1) 0 (oneSymbol [7, 0, 0, 0, 97, 98, 0]) =
      some (false, 0x8664) := by decide
  refine ⟨haccept, ((validateObj_protects_iff (by decide) (by decide)).mpr ?_).2 _ haccept⟩
  intro _ _ _ _
  decide

/-- The size of the string table is read outside of a file that ends behind its
symbols. -/
theorem string_size_read_outside :
    ¬ (validateObj (2 ^ 64 - 1) 0 (oneSymbol []) ≠ none ∧
      ∀ t, validateObj (2 ^ 64 - 1) 0 (oneSymbol []) = some (false, t) →
        Safe (2 ^ 64 - 1) (oneSymbol [])) :=
  fun h => h.1 (by decide)

end Dancy.Link
