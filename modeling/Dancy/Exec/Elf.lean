import Dancy.Exec.Coff
import Dancy.Lib.Bytes

/-!
# Loading an ELF program (`ld-dancy/elf.c`)

The program image is in the heap, above `0x80000000`, and is a list of bytes
here; a read behind its end leaves a mark in `outside`. The segments go between
`0x20000000` and `0x60000000`. `mmap` takes one page after the other, from the
last one down, and `pages` tells which of them can be had.
-/

namespace Dancy.Exec

open Dancy.Lib List

structure ElfState where
  mem : Bytes
  pages : List Bool
  outside : Bool

inductive ElfResult where
  | start (entry : Nat)
  | error (message : String)
  | mmap
deriving DecidableEq

/-- `n` bytes of the image are read. -/
def ElfState.touch (st : ElfState) (image : List UInt8) (offset n : Nat) : ElfState :=
  { st with outside := st.outside || decide (image.length < offset + n) }

def imageByte (image : List UInt8) : Bytes := fun i => image.getD i 0

/-- A field of `n` bytes. -/
def elfField (image : List UInt8) (offset : Nat) : Nat → Nat
  | 0 => 0
  | n + 1 => (imageByte image offset).toNat + 256 * elfField image (offset + 1) n

/-- A page that is mapped is zero, also if there was one before
(`pg_map_virtual`). -/
def zeroPage (mem : Bytes) (page : Nat) : Bytes :=
  fun a => if a / 0x1000 = page then 0 else mem a

/-- The loop of `pg_map_user` over the pages from `first` on. -/
def elfMapLoop (first : Nat) : (left : Nat) → ElfState → Bool × ElfState
  | 0, st => (true, st)
  | left + 1, st =>
    match st.pages with
    | true :: pages =>
      elfMapLoop first left { st with mem := zeroPage st.mem (first + left), pages := pages }
    | _ => (false, st)

/-- `pg_map_user`; 0 if it fails. -/
def elfMapUser (b : Build) (st : ElfState) (vaddr size : Nat) : Nat × ElfState :=
  if size = 0 ∨ vaddr < 0x10000000 then (0, st)
  else if vaddr > b.sizeTop - size then (0, st)
  else
    let vaddrBeg := vaddr / 0x1000
    let vaddrEnd := ((vaddr + size) % b.sizeTop + 0xFFF) % b.sizeTop / 0x1000
    let left := (vaddrEnd + b.sizeTop / 0x1000 - vaddrBeg) % (b.sizeTop / 0x1000)
    match elfMapLoop vaddrBeg left st with
    | (true, st) => (vaddr, st)
    | (false, st) => (0, st)

/-- `dancy_syscall_mmap` with the protection and the flags of `elf_map_pages`;
`none` is an error. -/
def elfSyscallMmap (b : Build) (st : ElfState) (address size : Nat) : Option Nat × ElfState :=
  if size = 0 then (none, st)
  else if address < 0x10000000 then (none, st)
  else
    let r := elfMapUser b st address size
    if r.1 ≠ address then (none, r.2) else (some address, r.2)

/-- `elf_map_pages`: if it succeeds. -/
def elfMapPages (b : Build) (st : ElfState) (addr size : Nat) : Bool × ElfState :=
  let r := elfSyscallMmap b st addr size
  (decide (r.1 = some addr), r.2)

/-! ## Headers -/

/-- The fields of a program header that decide. -/
structure Phdr where
  (type offset vaddr filesz memsz : Nat)
deriving DecidableEq

def Build.phdrSize : Build → Nat
  | .dancy32 => 32
  | .dancy64 => 56

def readPhdr (b : Build) (image : List UInt8) (entry : Nat) : Phdr :=
  match b with
  | .dancy32 =>
    { type := elfField image entry 4
      offset := elfField image (entry + 4) 4
      vaddr := elfField image (entry + 8) 4
      filesz := elfField image (entry + 16) 4
      memsz := elfField image (entry + 20) 4 }
  | .dancy64 =>
    { type := elfField image entry 4
      offset := elfField image (entry + 8) 8
      vaddr := elfField image (entry + 16) 8
      filesz := elfField image (entry + 32) 8
      memsz := elfField image (entry + 40) 8 }

def Build.ehdrSize : Build → Nat
  | .dancy32 => 52
  | .dancy64 => 64

def Build.eiClass : Build → Nat
  | .dancy32 => 1
  | .dancy64 => 2

def Build.eiClassError : Build → String
  | .dancy32 => "Only 32-bit supported (EI_CLASS)"
  | .dancy64 => "Only 64-bit supported (EI_CLASS)"

structure Ehdr where
  (type version entry phoff phentsize phnum : Nat)

def readEhdr (b : Build) (image : List UInt8) : Ehdr :=
  match b with
  | .dancy32 =>
    { type := elfField image 16 2
      version := elfField image 20 4
      entry := elfField image 24 4
      phoff := elfField image 28 4
      phentsize := elfField image 42 2
      phnum := elfField image 44 2 }
  | .dancy64 =>
    { type := elfField image 16 2
      version := elfField image 20 4
      entry := elfField image 24 8
      phoff := elfField image 32 8
      phentsize := elfField image 54 2
      phnum := elfField image 56 2 }

/-- `elf_ph_load` of the entry at an offset; `none` is the zero it returns. The
protection that is set at the end changes no byte. -/
def elfPhLoad (b : Build) (image : List UInt8) (entry : Nat) (st : ElfState) :
    Option ElfResult × ElfState :=
  let st := st.touch image entry b.phdrSize
  let p := readPhdr b image entry
  if p.type ≠ 1 ∨ p.memsz = 0 then (none, st)
  else if p.offset > image.length ∨ p.vaddr < 0x20000000 ∨ p.vaddr > 0x40000000 ∨
      p.memsz > 0x20000000 ∨ p.filesz > p.memsz ∨
      (p.offset + p.filesz) % b.sizeTop > image.length then
    (some (.error "Program header not supported"), st)
  else
    match elfMapPages b st p.vaddr p.memsz with
    | (false, st) => (some .mmap, st)
    | (true, st) =>
      if p.filesz ≠ 0 then
        let st := st.touch image p.offset p.filesz
        (none, { st with mem := st.mem.copy p.vaddr (imageByte image) p.offset p.filesz })
      else (none, st)

def phdrOffset (b : Build) (h : Ehdr) (i : Nat) : Nat :=
  (h.phoff + i * h.phentsize % b.sizeTop) % b.sizeTop

/-- The loop that loads the entries from `i` on. -/
def elfLoadLoop (b : Build) (image : List UInt8) (h : Ehdr) :
    (left i : Nat) → ElfState → Option ElfResult × ElfState
  | 0, _, st => (none, st)
  | left + 1, i, st =>
    match elfPhLoad b image (phdrOffset b h i) st with
    | (some r, st) => (some r, st)
    | (none, st) => elfLoadLoop b image h left (i + 1) st

/-- The loop that looks at the offsets: if one of them is behind the image. -/
def elfOverflow (b : Build) (image : List UInt8) (h : Ehdr) : Bool :=
  (range h.phnum).any fun i =>
    decide ((phdrOffset b h i + h.phentsize) % b.sizeTop > image.length)

/-- `elf_execute` up to `elf_start`. -/
def elfExecute (b : Build) (image : List UInt8) (st : ElfState) : ElfResult × ElfState :=
  if image.length < b.ehdrSize then (.error "Exec header not supported", st)
  else if image.length > 0x20000000 then (.error "Program size not supported", st)
  else
    let st := st.touch image 0 b.ehdrSize
    let h := readEhdr b image
    let eIdent := fun i => elfField image i 1
    if eIdent 4 ≠ b.eiClass then (.error b.eiClassError, st)
    else if eIdent 5 ≠ 1 then (.error "Data encoding not supported", st)
    else if eIdent 6 ≠ 1 ∨ h.version ≠ 1 then (.error "File version not supported", st)
    else if eIdent 7 ≠ 0 ∨ eIdent 8 ≠ 0 then (.error "ABI ident/version not supported", st)
    else if h.type ≠ 2 then (.error "Only executables supported (ET_EXEC)", st)
    else if h.entry < 0x20000000 ∨ h.entry > 0x40000000 then
      (.error "Start address not supported", st)
    else if h.phentsize < b.phdrSize ∨ h.phentsize > 0x1000 then
      (.error "Program entries not supported", st)
    else if h.phoff > 0x20000000 ∨ h.phnum > 0x1000 then
      (.error "Program header offset not supported", st)
    else if elfOverflow b image h then (.error "Program header overflow", st)
    else
      match elfLoadLoop b image h h.phnum 0 st with
      | (some r, st) => (r, st)
      | (none, st) => (.start h.entry, st)

/-! ## What loading is for -/

def Phdr.Loadable (p : Phdr) : Prop := p.type = 1 ∧ p.memsz ≠ 0

instance (p : Phdr) : Decidable p.Loadable := inferInstanceAs (Decidable (_ ∧ _))

/-- The loadable segments, in the order of their headers. -/
def segments (b : Build) (image : List UInt8) : List Phdr :=
  ((range (readEhdr b image).phnum).map fun i =>
    readPhdr b image ((readEhdr b image).phoff + i * (readEhdr b image).phentsize)).filter
      fun p => decide p.Loadable

def Phdr.Covers (p : Phdr) (a : Nat) : Prop := p.vaddr ≤ a ∧ a < p.vaddr + p.memsz

def Phdr.byte (image : List UInt8) (p : Phdr) (a : Nat) : UInt8 :=
  if a < p.vaddr + p.filesz then imageByte image (p.offset + (a - p.vaddr)) else 0

def Phdr.OnPage (p : Phdr) (a : Nat) : Prop :=
  p.vaddr / 0x1000 ≤ a / 0x1000 ∧ a / 0x1000 < (p.vaddr + p.memsz + 0xFFF) / 0x1000

instance (p : Phdr) (a : Nat) : Decidable (p.OnPage a) := inferInstanceAs (Decidable (_ ∧ _))

def Apart (ps : List Phdr) : Prop := ps.Pairwise fun p q => ∀ a, p.Covers a → ¬ q.Covers a

def SegmentsLoaded (image : List UInt8) (ps : List Phdr) (mem : Bytes) : Prop :=
  ∀ p ∈ ps, ∀ a, p.Covers a → mem a = p.byte image a

/-- What a segment has on a page of a later one is zero. -/
def ZeroOnLater (image : List UInt8) (ps : List Phdr) : Prop :=
  ps.Pairwise fun p q => ∀ a, p.Covers a → q.OnPage a → p.byte image a = 0

variable {b : Build} {image : List UInt8} {st st' : ElfState} {p : Phdr} {ps : List Phdr}
  {a : Nat}

theorem Build.sizeTop_cases (b : Build) :
    b.sizeTop = 0x100000000 ∨ b.sizeTop = 0x10000000000000000 := by
  cases b
  · exact Or.inl rfl
  · exact Or.inr rfl

theorem Phdr.Covers.onPage (h : p.Covers a) : p.OnPage a := by
  obtain ⟨hbeg, hend⟩ := h
  exact ⟨by omega, by omega⟩

theorem elfMapLoop_spec (first : Nat) : ∀ (left : Nat) (st : ElfState),
    (elfMapLoop first left st).2.outside = st.outside ∧
      ((elfMapLoop first left st).1 = true → (elfMapLoop first left st).2.mem =
        fun a => if first ≤ a / 0x1000 ∧ a / 0x1000 < first + left then 0 else st.mem a) := by
  intro left
  induction left with
  | zero =>
    intro st
    refine ⟨rfl, fun _ => funext fun a => ?_⟩
    rw [if_neg (by omega)]
    rfl
  | succ left ih =>
    intro st
    rw [elfMapLoop]
    split
    · next pages _ =>
        obtain ⟨hout, hmem⟩ := ih { st with mem := zeroPage st.mem (first + left), pages := pages }
        refine ⟨hout, fun h => (hmem h).trans (funext fun a => ?_)⟩
        dsimp only [zeroPage]
        by_cases hlast : a / 0x1000 = first + left
        · rw [if_neg (by omega), if_pos hlast, if_pos (by omega)]
        · rw [if_neg hlast]
          by_cases hin : first ≤ a / 0x1000 ∧ a / 0x1000 < first + left
          · rw [if_pos hin, if_pos (by omega)]
          · rw [if_neg hin, if_neg (by omega)]
    · simp

theorem elfMapPages_spec (st : ElfState) {vaddr size : Nat} (hvaddr : 0x20000000 ≤ vaddr)
    (hvaddr' : vaddr ≤ 0x40000000) (hsize : size ≠ 0) (hsize' : size ≤ 0x20000000) :
    (elfMapPages b st vaddr size).2.outside = st.outside ∧
      ((elfMapPages b st vaddr size).1 = true → (elfMapPages b st vaddr size).2.mem =
        fun a => if vaddr / 0x1000 ≤ a / 0x1000 ∧ a / 0x1000 < (vaddr + size + 0xFFF) / 0x1000
          then 0 else st.mem a) := by
  have htop := b.sizeTop_cases
  have hend : ((vaddr + size) % b.sizeTop + 0xFFF) % b.sizeTop / 0x1000 =
      (vaddr + size + 0xFFF) / 0x1000 := by
    rw [Nat.mod_eq_of_lt (show vaddr + size < b.sizeTop by omega),
      Nat.mod_eq_of_lt (by omega)]
  have hleft : ((vaddr + size + 0xFFF) / 0x1000 + b.sizeTop / 0x1000 - vaddr / 0x1000) %
      (b.sizeTop / 0x1000) = (vaddr + size + 0xFFF) / 0x1000 - vaddr / 0x1000 := by
    rw [show (vaddr + size + 0xFFF) / 0x1000 + b.sizeTop / 0x1000 - vaddr / 0x1000 =
      (vaddr + size + 0xFFF) / 0x1000 - vaddr / 0x1000 + b.sizeTop / 0x1000 by omega,
      Nat.add_mod_right, Nat.mod_eq_of_lt (by omega)]
  obtain ⟨hout, hmem⟩ := elfMapLoop_spec (vaddr / 0x1000)
    ((vaddr + size + 0xFFF) / 0x1000 - vaddr / 0x1000) st
  have hlow : ¬ (size = 0 ∨ vaddr < 0x10000000) := by omega
  have hhigh : ¬ vaddr > b.sizeTop - size := by omega
  have hpages : vaddr / 0x1000 + ((vaddr + size + 0xFFF) / 0x1000 - vaddr / 0x1000) =
      (vaddr + size + 0xFFF) / 0x1000 := by omega
  have hmap : elfMapUser b st vaddr size = ((if (elfMapLoop (vaddr / 0x1000)
          ((vaddr + size + 0xFFF) / 0x1000 - vaddr / 0x1000) st).1 then vaddr else 0),
        (elfMapLoop (vaddr / 0x1000)
          ((vaddr + size + 0xFFF) / 0x1000 - vaddr / 0x1000) st).2) := by
    rw [elfMapUser, if_neg hlow, if_neg hhigh]
    dsimp only
    rw [hend, hleft]
    rcases elfMapLoop (vaddr / 0x1000) _ st with ⟨done, st'⟩
    cases done <;> rfl
  rw [hpages] at hmem
  rw [elfMapPages, elfSyscallMmap, if_neg hsize, if_neg (by omega), hmap]
  generalize elfMapLoop (vaddr / 0x1000) ((vaddr + size + 0xFFF) / 0x1000 - vaddr / 0x1000) st = r
    at hout hmem
  rcases r with ⟨done, st'⟩
  cases done with
  | true =>
    rw [if_pos rfl, if_neg (not_not_intro rfl)]
    exact ⟨hout, fun _ => hmem rfl⟩
  | false =>
    rw [if_neg Bool.false_ne_true, if_pos (show ¬ 0 = vaddr by omega)]
    exact ⟨hout, fun h => by cases h⟩

def loadSegment (image : List UInt8) (mem : Bytes) (p : Phdr) : Bytes :=
  fun a => if p.OnPage a then if p.vaddr ≤ a then p.byte image a else 0 else mem a

theorem elfPhLoad_spec {entry : Nat} (hlen : image.length ≤ 0x20000000)
    (hentry : entry + b.phdrSize ≤ image.length) (st : ElfState) :
    (elfPhLoad b image entry st).2.outside = st.outside ∧ ((elfPhLoad b image entry st).1 = none →
        if (readPhdr b image entry).Loadable then
          (readPhdr b image entry).filesz ≤ (readPhdr b image entry).memsz ∧
            (elfPhLoad b image entry st).2.mem = loadSegment image st.mem (readPhdr b image entry)
        else (elfPhLoad b image entry st).2.mem = st.mem) := by
  have htouch : st.touch image entry b.phdrSize = st := by
    rw [ElfState.touch, decide_eq_false (by omega), Bool.or_false]
  rw [elfPhLoad, htouch]
  generalize readPhdr b image entry = p
  have htop := b.sizeTop_cases
  by_cases hload : p.type ≠ 1 ∨ p.memsz = 0
  · rw [if_pos hload]
    refine ⟨rfl, fun _ => ?_⟩
    rw [if_neg (fun h => hload.elim (fun ht => ht h.1) h.2)]
  rw [if_neg hload]
  have hload : p.Loadable := by
    rw [not_or, not_not] at hload
    exact hload
  by_cases hbad : p.offset > image.length ∨ p.vaddr < 0x20000000 ∨ p.vaddr > 0x40000000 ∨
      p.memsz > 0x20000000 ∨ p.filesz > p.memsz ∨
      (p.offset + p.filesz) % b.sizeTop > image.length
  · rw [if_pos hbad]
    simp
  rw [if_neg hbad]
  simp only [not_or, not_lt] at hbad
  obtain ⟨hoffset, hvaddr, hvaddr', hmemsz, hfilesz, hread⟩ := hbad
  rw [Nat.mod_eq_of_lt (by omega)] at hread
  obtain ⟨hout, hmem⟩ := elfMapPages_spec st hvaddr hvaddr' hload.2 hmemsz
  cases hrun : elfMapPages b st p.vaddr p.memsz with
  | mk done st' =>
    rw [hrun] at hout hmem
    cases done with
    | false => exact ⟨hout, fun h => by cases h⟩
    | true =>
      have hmem : st'.mem = fun a => if p.OnPage a then 0 else st.mem a := hmem rfl
      dsimp only
      by_cases hfile : p.filesz ≠ 0
      · rw [if_pos hfile]
        have htouch' : st'.touch image p.offset p.filesz = st' := by
          rw [ElfState.touch, decide_eq_false (by omega), Bool.or_false]
        rw [htouch']
        refine ⟨hout, fun _ => ?_⟩
        rw [if_pos hload]
        refine ⟨hfilesz, funext fun a => ?_⟩
        dsimp only [loadSegment]
        by_cases hin : p.vaddr ≤ a ∧ a < p.vaddr + p.filesz
        · have hcovers : p.Covers a := ⟨hin.1, by omega⟩
          rw [Bytes.copy_inside hin.1 hin.2, if_pos hcovers.onPage, if_pos hin.1, Phdr.byte,
            if_pos hin.2]
        rw [Bytes.copy_outside (by omega), hmem]
        dsimp only
        by_cases hpage : p.OnPage a
        · rw [if_pos hpage, if_pos hpage]
          by_cases hbeg : p.vaddr ≤ a
          · rw [if_pos hbeg, Phdr.byte, if_neg (by omega)]
          · rw [if_neg hbeg]
        · rw [if_neg hpage, if_neg hpage]
      · rw [if_neg hfile]
        refine ⟨hout, fun _ => ?_⟩
        rw [if_pos hload]
        refine ⟨hfilesz, ?_⟩
        rw [hmem]
        refine funext fun a => ?_
        dsimp only [loadSegment]
        by_cases hpage : p.OnPage a
        · rw [if_pos hpage, if_pos hpage]
          split
          · rw [Phdr.byte, if_neg (by omega)]
          · rfl
        · rw [if_neg hpage, if_neg hpage]

/-! ## All segments -/

theorem elfLoadLoop_spec {h : Ehdr} (hlen : image.length ≤ 0x20000000) : ∀ (left i : Nat)
    (st : ElfState), (∀ j, i ≤ j → j < i + left → phdrOffset b h j + b.phdrSize ≤ image.length) →
    (elfLoadLoop b image h left i st).2.outside = st.outside ∧
      ((elfLoadLoop b image h left i st).1 = none →
        ∃ ps, ps = ((range' i left).map fun j => readPhdr b image (phdrOffset b h j)).filter
            (fun p => decide p.Loadable) ∧
          (∀ p ∈ ps, p.filesz ≤ p.memsz) ∧
          (elfLoadLoop b image h left i st).2.mem = ps.foldl (loadSegment image) st.mem) := by
  intro left
  induction left with
  | zero => exact fun i st _ => ⟨rfl, fun _ => ⟨[], rfl, forall_mem_nil _, rfl⟩⟩
  | succ left ih =>
    intro i st hin
    obtain ⟨hout, hload⟩ := elfPhLoad_spec hlen (hin i (le_refl i) (by omega)) st
    rw [elfLoadLoop]
    cases hrun : elfPhLoad b image (phdrOffset b h i) st with
    | mk r st' =>
      rw [hrun] at hout hload
      cases r with
      | some r => exact ⟨hout, fun h => by cases h⟩
      | none =>
        obtain ⟨hout', hloop⟩ := ih (i + 1) st' (fun j hij hj => hin j (by omega) (by omega))
        refine ⟨hout'.trans hout, fun hdone => ?_⟩
        obtain ⟨ps, hps, hsize, hmem⟩ := hloop hdone
        have hload := hload rfl
        rw [range'_succ, map_cons]
        by_cases hl : (readPhdr b image (phdrOffset b h i)).Loadable
        · rw [if_pos hl] at hload
          refine ⟨_, rfl, ?_, ?_⟩
          · rw [filter_cons_of_pos (by exact decide_eq_true hl), ← hps]
            exact forall_mem_cons.mpr ⟨hload.1, hsize⟩
          · rw [filter_cons_of_pos (by exact decide_eq_true hl), ← hps, hmem, hload.2]
            rfl
        · rw [if_neg hl] at hload
          refine ⟨_, rfl, ?_, ?_⟩
          · rwa [filter_cons_of_neg (by simpa using hl), ← hps]
          · rw [filter_cons_of_neg (by simpa using hl), ← hps, hmem, hload]

theorem elfPhLoad_not_start (entry : Nat) (st : ElfState) {e : Nat} :
    (elfPhLoad b image entry st).1 ≠ some (.start e) := by
  rw [elfPhLoad]
  split
  · simp
  split
  · exact fun h => by cases h
  · split
    · simp
    · split <;> exact fun h => by cases h

theorem elfLoadLoop_not_start {h : Ehdr} {e : Nat} : ∀ (left i : Nat) (st : ElfState),
    (elfLoadLoop b image h left i st).1 ≠ some (.start e) := by
  intro left
  induction left with
  | zero => exact fun i st heq => by cases heq
  | succ left ih =>
    intro i st
    have hone := @elfPhLoad_not_start b image (phdrOffset b h i) st e
    rw [elfLoadLoop]
    cases hrun : elfPhLoad b image (phdrOffset b h i) st with
    | mk r st' =>
      rw [hrun] at hone
      cases r with
      | some r => exact hone
      | none => exact ih (i + 1) st'

/-- A segment that does not have the address keeps the byte, or clears it. -/
theorem loadSegment_other {q : Phdr} (hsize : q.filesz ≤ q.memsz) (hq : ¬ q.Covers a)
    (mem : Bytes) : loadSegment image mem q a = if q.OnPage a then 0 else mem a := by
  rw [loadSegment]
  by_cases hpage : q.OnPage a
  · rw [if_pos hpage, if_pos hpage]
    by_cases hbeg : q.vaddr ≤ a
    · rw [if_pos hbeg, Phdr.byte, if_neg (fun hlt => hq ⟨hbeg, by omega⟩)]
    · rw [if_neg hbeg]
  · rw [if_neg hpage, if_neg hpage]

theorem foldl_other : ∀ (qs : List Phdr) (mem : Bytes), (∀ q ∈ qs, q.filesz ≤ q.memsz) →
    (∀ q ∈ qs, ¬ q.Covers a) → qs.foldl (loadSegment image) mem a =
      if ∃ q ∈ qs, q.OnPage a then 0 else mem a := by
  intro qs
  induction qs with
  | nil =>
    intro mem _ _
    rfl
  | cons q qs ih =>
    intro mem hsize hcovers
    rw [forall_mem_cons] at hsize hcovers
    rw [foldl_cons, ih _ hsize.2 hcovers.2, loadSegment_other hsize.1 hcovers.1]
    by_cases hrest : ∃ q ∈ qs, q.OnPage a
    · rw [if_pos hrest, if_pos]
      obtain ⟨r, hr, hpage⟩ := hrest
      exact ⟨r, mem_cons_of_mem q hr, hpage⟩
    rw [if_neg hrest]
    by_cases hpage : q.OnPage a
    · rw [if_pos hpage, if_pos ⟨q, mem_cons_self, hpage⟩]
    rw [if_neg hpage, if_neg]
    rintro ⟨r, hr, hrpage⟩
    rcases mem_cons.mp hr with rfl | hr
    · exact hpage hrpage
    · exact hrest ⟨r, hr, hrpage⟩

/-- The segments are there just if nothing of them is on a page of a later one. -/
theorem foldl_loaded : ∀ (ps : List Phdr) (mem : Bytes), (∀ p ∈ ps, p.filesz ≤ p.memsz) →
    Apart ps → (SegmentsLoaded image ps (ps.foldl (loadSegment image) mem) ↔
      ZeroOnLater image ps) := by
  intro ps
  induction ps with
  | nil => exact fun mem _ _ => ⟨fun _ => List.Pairwise.nil, fun _ => forall_mem_nil _⟩
  | cons p ps ih =>
    intro mem hsize hapart
    rw [forall_mem_cons] at hsize
    obtain ⟨hfirst, hapart⟩ := pairwise_cons.mp hapart
    have hrest := ih (loadSegment image mem p) hsize.2 hapart
    -- the byte of the first segment, after the others
    have hat : ∀ a, p.Covers a → (ps.foldl (loadSegment image) (loadSegment image mem p)) a =
        if ∃ q ∈ ps, q.OnPage a then 0 else p.byte image a := by
      intro a ha
      rw [foldl_other ps _ hsize.2 (fun q hq => hfirst q hq a ha)]
      rw [show loadSegment image mem p a = p.byte image a by
        rw [loadSegment, if_pos ha.onPage, if_pos ha.1]]
    rw [SegmentsLoaded, ZeroOnLater, forall_mem_cons, pairwise_cons, foldl_cons]
    refine and_congr ⟨fun h q hq a ha hpage => ?_, fun h a ha => ?_⟩ hrest
    · rw [← h a ha, hat a ha, if_pos ⟨q, hq, hpage⟩]
    rw [hat a ha]
    split
    · next hpage =>
        obtain ⟨q, hq, hpage⟩ := hpage
        exact (h q hq a ha hpage).symm
    · rfl

/-- The offsets of the entries do not wrap, and the entries lie in the image. -/
theorem phdrOffset_in {h : Ehdr}
    (hphent : ¬ (h.phentsize < b.phdrSize ∨ h.phentsize > 0x1000))
    (hphoff : ¬ (h.phoff > 0x20000000 ∨ h.phnum > 0x1000))
    (hin : elfOverflow b image h = false) {i : Nat} (hi : i < h.phnum) :
    phdrOffset b h i = h.phoff + i * h.phentsize ∧
      phdrOffset b h i + b.phdrSize ≤ image.length := by
  have htop := b.sizeTop_cases
  have hmul : i * h.phentsize ≤ 0x1000 * 0x1000 := Nat.mul_le_mul (by omega) (by omega)
  have hoffset : phdrOffset b h i = h.phoff + i * h.phentsize := by
    rw [phdrOffset, Nat.mod_eq_of_lt (show i * h.phentsize < b.sizeTop by omega),
      Nat.mod_eq_of_lt (by omega)]
  rw [elfOverflow, any_eq_false] at hin
  have hread := hin i (mem_range.mpr hi)
  rw [hoffset, Nat.mod_eq_of_lt (by omega)] at hread
  simp only [decide_eq_true_eq] at hread
  omega

theorem elfExecute_spec (b : Build) (image : List UInt8) (st : ElfState) :
    (elfExecute b image st).2.outside = st.outside ∧
      ∀ entry, (elfExecute b image st).1 = .start entry →
        (∀ p ∈ segments b image, p.filesz ≤ p.memsz) ∧
          (elfExecute b image st).2.mem = (segments b image).foldl (loadSegment image) st.mem := by
  rw [elfExecute]
  by_cases hsize : image.length < b.ehdrSize
  · rw [if_pos hsize]
    simp
  by_cases hlarge : image.length > 0x20000000
  · rw [if_neg hsize, if_pos hlarge]
    exact ⟨rfl, fun _ h => by cases h⟩
  have htouch : st.touch image 0 b.ehdrSize = st := by
    rw [ElfState.touch, decide_eq_false (by omega), Bool.or_false]
  rw [if_neg hsize, if_neg hlarge, htouch, segments]
  generalize readEhdr b image = h
  by_cases h1 : elfField image 4 1 ≠ b.eiClass
  · rw [if_pos h1]
    simp
  by_cases h2 : elfField image 5 1 ≠ 1
  · rw [if_neg h1, if_pos h2]
    exact ⟨rfl, fun _ h => by cases h⟩
  by_cases h3 : elfField image 6 1 ≠ 1 ∨ h.version ≠ 1
  · rw [if_neg h1, if_neg h2, if_pos h3]
    exact ⟨rfl, fun _ h => by cases h⟩
  by_cases h4 : elfField image 7 1 ≠ 0 ∨ elfField image 8 1 ≠ 0
  · rw [if_neg h1, if_neg h2, if_neg h3, if_pos h4]
    exact ⟨rfl, fun _ h => by cases h⟩
  by_cases h5 : h.type ≠ 2
  · rw [if_neg h1, if_neg h2, if_neg h3, if_neg h4, if_pos h5]
    exact ⟨rfl, fun _ h => by cases h⟩
  by_cases h6 : h.entry < 0x20000000 ∨ h.entry > 0x40000000
  · rw [if_neg h1, if_neg h2, if_neg h3, if_neg h4, if_neg h5, if_pos h6]
    exact ⟨rfl, fun _ h => by cases h⟩
  rw [if_neg h1, if_neg h2, if_neg h3, if_neg h4, if_neg h5, if_neg h6]
  by_cases hphent : h.phentsize < b.phdrSize ∨ h.phentsize > 0x1000
  · rw [if_pos hphent]
    exact ⟨rfl, fun _ h => by cases h⟩
  by_cases hphoff : h.phoff > 0x20000000 ∨ h.phnum > 0x1000
  · rw [if_neg hphent, if_pos hphoff]
    exact ⟨rfl, fun _ h => by cases h⟩
  rw [if_neg hphent, if_neg hphoff]
  cases hover : elfOverflow b image h with
  | true =>
    exact ⟨rfl, fun _ h => by cases h⟩
  | false =>
    have hlen : image.length ≤ 0x20000000 := by omega
    have hat := fun i => @phdrOffset_in b image h hphent hphoff hover i
    obtain ⟨hout, hload⟩ := elfLoadLoop_spec (h := h) hlen h.phnum 0 st
      (fun j _ hj => (hat j (by omega)).2)
    cases hrun : elfLoadLoop b image h h.phnum 0 st with
    | mk r st' =>
      rw [hrun] at hout hload
      cases r with
      | some r =>
        refine ⟨hout, fun entry hstart => ?_⟩
        have hr : r = .start entry := hstart
        refine absurd ?_ (@elfLoadLoop_not_start b image h entry h.phnum 0 st)
        rw [hrun, hr]
      | none =>
        refine ⟨hout, fun entry _ => ?_⟩
        obtain ⟨ps, hps, hfile, hmem⟩ := hload rfl
        have hsegments : ps = ((range h.phnum).map fun i =>
            readPhdr b image (h.phoff + i * h.phentsize)).filter
              fun p => decide p.Loadable := by
          rw [hps, ← range_eq_range']
          refine congrArg _ (map_congr_left fun i hi => ?_)
          rw [(hat i (mem_range.mp hi)).1]
        rw [← hsegments]
        exact ⟨hfile, hmem⟩

/-- Reads stay in the image; and when the program is started with its segments
apart, their bytes are there just if nothing of a segment is on a page of a later
one. -/
theorem elf_execute_loads (b : Build) (image : List UInt8) (st : ElfState)
    (hst : st.outside = false) :
    (elfExecute b image st).2.outside = false ∧
      ∀ entry, (elfExecute b image st).1 = .start entry → Apart (segments b image) →
        (SegmentsLoaded image (segments b image) (elfExecute b image st).2.mem ↔
          ZeroOnLater image (segments b image)) := by
  obtain ⟨hout, hstart⟩ := elfExecute_spec b image st
  refine ⟨hout.trans hst, fun entry hentry hapart => ?_⟩
  obtain ⟨hsize, hmem⟩ := hstart entry hentry
  rw [hmem]
  exact foldl_loaded _ _ hsize hapart

/-- A number of `n` bytes, the low byte first. -/
def elfBytes : (n v : Nat) → List UInt8
  | 0, _ => []
  | n + 1, v => UInt8.ofNat (v % 256) :: elfBytes n (v / 256)

/-- An image with a segment of four bytes at each address. -/
def elfImage (vaddrs : List Nat) : List UInt8 :=
  [0x7F, 0x45, 0x4C, 0x46, 2, 1, 1, 0] ++ elfBytes 8 0 ++ elfBytes 2 2 ++ elfBytes 2 62 ++
    elfBytes 4 1 ++ elfBytes 8 0x20000000 ++ elfBytes 8 64 ++ elfBytes 8 0 ++ elfBytes 4 0 ++
    elfBytes 2 64 ++ elfBytes 2 56 ++ elfBytes 2 vaddrs.length ++ elfBytes 6 0 ++
    vaddrs.flatMap fun vaddr => elfBytes 4 1 ++ elfBytes 4 7 ++ elfBytes 8 0 ++ elfBytes 8 vaddr ++
      elfBytes 8 vaddr ++ elfBytes 8 4 ++ elfBytes 8 4 ++ elfBytes 8 0x1000

def elfFresh : ElfState := ⟨fun _ => 0, [true, true], false⟩

/-- Two segments on pages of their own. -/
theorem elf_execute_loads_pages : SegmentsLoaded (elfImage [0x20000000, 0x20001000])
    (segments .dancy64 (elfImage [0x20000000, 0x20001000]))
    (elfExecute .dancy64 (elfImage [0x20000000, 0x20001000]) elfFresh).2.mem := by
  have hsegments : segments .dancy64 (elfImage [0x20000000, 0x20001000]) =
      [⟨1, 0, 0x20000000, 4, 4⟩, ⟨1, 0, 0x20001000, 4, 4⟩] := by decide +kernel
  refine ((elf_execute_loads .dancy64 (elfImage [0x20000000, 0x20001000]) elfFresh rfl).2
    0x20000000 (by decide +kernel) ?_).mpr ?_
  · rw [hsegments, Apart, pairwise_pair]
    rintro a ⟨-, ha⟩ ⟨ha', -⟩
    dsimp only at ha ha'
    omega
  · rw [hsegments, ZeroOnLater, pairwise_pair]
    rintro a ⟨-, ha⟩ ⟨ha', -⟩
    dsimp only at ha ha'
    omega

/-- Two segments on one page: the first is lost. -/
theorem elf_shared_page : (elfExecute .dancy64 (elfImage [0x20000000, 0x20000800]) elfFresh).1 =
      .start 0x20000000 ∧
    Apart (segments .dancy64 (elfImage [0x20000000, 0x20000800])) ∧
      ¬ SegmentsLoaded (elfImage [0x20000000, 0x20000800])
        (segments .dancy64 (elfImage [0x20000000, 0x20000800]))
        (elfExecute .dancy64 (elfImage [0x20000000, 0x20000800]) elfFresh).2.mem := by
  have hsegments : segments .dancy64 (elfImage [0x20000000, 0x20000800]) =
      [⟨1, 0, 0x20000000, 4, 4⟩, ⟨1, 0, 0x20000800, 4, 4⟩] := by decide +kernel
  refine ⟨by decide +kernel, ?_, fun h => ?_⟩
  · rw [hsegments, Apart, pairwise_pair]
    rintro a ⟨-, ha⟩ ⟨ha', -⟩
    dsimp only at ha ha'
    omega
  · rw [hsegments] at h
    have hbyte := h _ mem_cons_self 0x20000000 ⟨by decide, by decide⟩
    exact absurd hbyte (by decide +kernel)

end Dancy.Exec
