import Dancy.Lib.Memory
import Dancy.Lib.Prog

/-!
# Loading an executable (`coff.c`)

`coff_load_executable` maps the page below `0x80000000` for the header and
its own state, the pages below that for relocations and symbols, and from
`0x10000000` on one area for each section. Every access to memory of the
task is noted down, with the kind of access, and so is every computed size,
once as the machine has it and once as it should be.
-/

namespace Dancy.Exec

open Dancy.Lib List

inductive Build where
  | dancy32
  | dancy64

/-- `coff_native_signature`. -/
def Build.signature : Build → Nat
  | .dancy32 => 0x014C
  | .dancy64 => 0x8664

/-- `coff_start`, as the eight bytes `strncmp` looks at. -/
def Build.start : Build → List Nat
  | .dancy32 => "___start".toList.map Char.toNat
  | .dancy64 => "__start".toList.map Char.toNat ++ [0]

/-- The values of `size_t` and `addr_t`. -/
def Build.sizeTop : Build → Nat
  | .dancy32 => 0x100000000
  | .dancy64 => 0x10000000000000000

/-- The values of `uint32_t`, and of `unsigned long` for this compiler. -/
def u32Top : Nat := 0x100000000

def u64Top : Nat := 0x10000000000000000

inductive CoffCode where
  | uninitialized
  | memory
  | unexpected
  | read (r : Nat)
  | size
  | signature
  | section
  | header
  | flag
  | symbol
  | external
  | format
  | relocation
  | start
  /-- `coff_relocate` stops the processor at an unknown type. -/
  | halt

/-! ## The environment -/

/-- How `n_read` answers: the return value, the size it reports, and what
it leaves in the buffer. -/
structure ReadReply where
  (code size : Nat)
  data : Memory

/-- What the rest of the kernel does. Calls are numbered. -/
structure World where
  pgCr3 : Bool
  /-- `n_read`, for an offset and a size. -/
  read : Nat → Nat → Nat → ReadReply
  /-- Whether `pg_map_user` succeeds. -/
  map : Nat → Bool

/-- Types of `pg_map_user`. -/
structure MapType where
  (readonly noexec : Bool)

/-- A successful call of `pg_map_user`. -/
structure Mapping where
  (vaddr size : Nat)
  type : MapType

def Mapping.Contains (r : Mapping) (x : Nat) : Prop :=
  r.vaddr / 0x1000 * 0x1000 ≤ x ∧ x < (r.vaddr + r.size + 0xFFF) / 0x1000 * 0x1000

/-- Reads, writes, and accesses to the state of the loader (`struct coff`). -/
inductive AccessKind where
  | read
  | write
  | state

structure Access where
  kind : AccessKind
  (addr size : Nat)

structure LoadState where
  mem : Memory
  mapped : List Mapping
  log : List Access
  /-- Computed sizes: the value of the machine, and the exact one. -/
  sums : List (Nat × Nat)
  (reads maps : Nat)

abbrev Loader := Prog CoffCode LoadState

/-- A value of `n` bytes. -/
def rd (addr n : Nat) : Loader Nat :=
  Prog.act fun s => (load s.mem addr n, { s with log := ⟨.read, addr, n⟩ :: s.log })

def wr (addr n v : Nat) : Loader Unit :=
  Prog.act fun s =>
    ((), { s with mem := store s.mem addr n v, log := ⟨.write, addr, n⟩ :: s.log })

/-- An access to the state of the loader, or its last one. -/
def touch (addr n : Nat) : Loader Unit :=
  Prog.act fun s => ((), { s with log := ⟨.state, addr, n⟩ :: s.log })

/-- A computed size; `top` is the number of values of its type. -/
def sum (top exact : Nat) : Loader Nat :=
  Prog.act fun s => (exact % top, { s with sums := (exact % top, exact) :: s.sums })

def diff (top a b : Nat) : Loader Nat :=
  Prog.act fun s =>
    ((a + top - b) % top, { s with sums := ((a + top - b) % top + b, a) :: s.sums })

/-- `pg_map_user`: the address, or `0`. New pages are filled with zeros. -/
def pgMapUser (w : World) (vaddr size : Nat) (type : MapType) : Loader Nat :=
  Prog.act fun s =>
    if size = 0 ∨ vaddr < 0x10000000 then (0, s)
    else if w.map s.maps then
      (vaddr, { s with
        maps := s.maps + 1
        mapped := ⟨vaddr, size, type⟩ :: s.mapped
        mem := fun a =>
          if vaddr / 0x1000 * 0x1000 ≤ a ∧ a < (vaddr + size + 0xFFF) / 0x1000 * 0x1000 then 0
          else s.mem a })
    else (0, { s with maps := s.maps + 1 })

/-- `node->n_read(node, offset, &size, buffer)`: the return value and the
reported size. Whatever it answers, it stays inside the buffer. -/
def nRead (w : World) (offset size buffer : Nat) : Loader (Nat × Nat) :=
  Prog.act fun s =>
    let r := w.read s.reads offset size
    ((r.code, r.size), { s with
      reads := s.reads + 1
      mem := fun a => if buffer ≤ a ∧ a < buffer + size then r.data (a - buffer) else s.mem a
      log := ⟨.write, buffer, size⟩ :: s.log })

/-! ## The header -/

def objAddr : Nat := 0x7FFFF000

/-- The address of `struct coff`, and its size. -/
def coffAddr : Nat := objAddr + 256

def coffSize : Nat := 216

/-- The bytes of a string, as `memcmp` compares them. -/
def rdBytes (addr : Nat) : Nat → Loader (List Nat)
  | 0 => pure []
  | n + 1 => do
      let b ← rd addr 1
      let rest ← rdBytes (addr + 1) n
      return b :: rest

def nameBytes (s : String) : List Nat := s.toList.map Char.toNat ++ [0]

def checkName (addr : Nat) (name : String) : Loader Unit := do
  let b ← rdBytes addr (nameBytes name).length
  Prog.failIf (b ≠ nameBytes name) .section

def checkFlag (addr flag : Nat) : Loader Unit := do
  let f ← rd addr 4
  Prog.failIf (f &&& 0xFF0FFFFF ≠ flag) .flag

def coffValidate (b : Build) (obj : Nat) : Loader Unit := do
  let signature ← rd obj 2
  Prog.failIf (signature ≠ b.signature) .signature
  let sections ← rd (obj + 2) 2
  Prog.failIf (sections ≠ 4) .section
  let opt ← rd (obj + 16) 2
  Prog.failIf (opt ≠ 0) .header
  checkName (obj + 20) ".text"
  checkName (obj + 60) ".rdata"
  checkName (obj + 100) ".data"
  checkName (obj + 140) ".bss"
  checkFlag (obj + 20 + 36) 0x60000020
  checkFlag (obj + 60 + 36) 0x40000040
  checkFlag (obj + 100 + 36) 0xC0000040
  checkFlag (obj + 140 + 36) 0xC0000080

/-- The fields of a section header: `_size`, `_sec`, `_rel` and `_nrel`. -/
structure Section where
  (size sec rel nrel : Nat)

def rdSection (obj i : Nat) : Loader Section := do
  let size ← rd (obj + 20 + i * 40 + 16) 4
  let sec ← rd (obj + 20 + i * 40 + 20) 4
  let rel ← rd (obj + 20 + i * 40 + 24) 4
  let nrel ← rd (obj + 20 + i * 40 + 32) 2
  return ⟨size, sec, rel, nrel⟩

/-- The fields of `struct coff` that come from the file. -/
structure CoffFile where
  (symbolTable symbolCount : Nat)
  (text rdata data bss : Section)

def rdFile (obj : Nat) : Loader CoffFile := do
  let symbolTable ← rd (obj + 8) 4
  let symbolCount ← rd (obj + 12) 4
  Prog.failIf (symbolCount < 4) .symbol
  let text ← rdSection obj 0
  let rdata ← rdSection obj 1
  let data ← rdSection obj 2
  let bss ← rdSection obj 3
  Prog.failIf (bss.sec ≠ 0 ∨ bss.rel ≠ 0 ∨ bss.nrel ≠ 0) .section
  return ⟨symbolTable, symbolCount, text, rdata, data, bss⟩

/-! ## Sizes and places -/

/-- The computed sizes of `struct coff`. -/
structure CoffSizes where
  (text rdata data bss stack textRel rdataRel dataRel : Nat)

/-- `(size + a) & m`. -/
def alignSize (size : Nat) : Loader Nat := do
  let s ← sum u64Top (size + 0xFFF)
  return s / 0x1000 * 0x1000

def computeSizes (b : Build) (f : CoffFile) : Loader CoffSizes := do
  let text ← alignSize f.text.size
  let rdata ← alignSize f.rdata.size
  let data ← alignSize f.data.size
  let bss ← alignSize f.bss.size
  let bss := if bss = 0 then 0x1000 else bss
  let total ← sum u64Top text
  let total ← sum u64Top (total + rdata)
  let total ← sum u64Top (total + data)
  let total ← sum u64Top (total + bss)
  Prog.failIf (total > 0x60000000) .size
  let symbols ← sum u64Top (f.symbolCount * 18)
  let stack ← sum u64Top (0x1000 + symbols)
  let textRel ← sum u64Top (f.text.nrel * 10)
  let stack ← sum u64Top (stack + textRel)
  let rdataRel ← sum u64Top (f.rdata.nrel * 10)
  let stack ← sum u64Top (stack + rdataRel)
  let dataRel ← sum u64Top (f.data.nrel * 10)
  let stack ← sum u64Top (stack + dataRel)
  let stack ← alignSize stack
  Prog.failIf (stack ≤ 0x1000) .unexpected
  Prog.failIf (stack > 0x08000000) .size
  let text ← sum b.sizeTop text
  let rdata ← sum b.sizeTop rdata
  let data ← sum b.sizeTop data
  let bss ← sum b.sizeTop bss
  let stack ← sum b.sizeTop stack
  let textRel ← sum u32Top (f.text.nrel * 10)
  let rdataRel ← sum u32Top (f.rdata.nrel * 10)
  let dataRel ← sum u32Top (f.data.nrel * 10)
  return ⟨text, rdata, data, bss, stack, textRel, rdataRel, dataRel⟩

/-- The addresses of `struct coff`. -/
structure CoffPlaces where
  (text rdata data bss stack0 stack1 stack2 stack3 : Nat)

/-- The mapping of one section: its address, which is `0` for an empty one,
and the address after it. -/
def mapSection (w : World) (b : Build) (vaddr size : Nat) (type : MapType) :
    Loader (Nat × Nat) :=
  if size = 0 then pure (0, vaddr)
  else do
    let v ← pgMapUser w vaddr size type
    Prog.failIf (v ≠ vaddr) .memory
    let next ← sum b.sizeTop (vaddr + size)
    return (vaddr, next)

/-- The mapping of the stack area below the page of the header. -/
def mapStack (w : World) (vaddr size : Nat) : Loader Unit :=
  if size = 0 then pure ()
  else do
    let v ← pgMapUser w vaddr size ⟨false, true⟩
    Prog.failIf (v ≠ vaddr) .memory

def coffAllocate (w : World) (b : Build) (c : CoffSizes) : Loader CoffPlaces := do
  let vaddr ← diff b.sizeTop 0x80000000 c.stack
  let size ← diff b.sizeTop c.stack 0x1000
  mapStack w vaddr size
  Prog.failIf (vaddr < 0x78000000) .unexpected
  let stack1 ← sum b.sizeTop (vaddr + c.textRel)
  let stack2 ← sum b.sizeTop (stack1 + c.rdataRel)
  let stack3 ← sum b.sizeTop (stack2 + c.dataRel)
  let text ← mapSection w b 0x10000000 c.text ⟨true, false⟩
  let rdata ← mapSection w b text.2 c.rdata ⟨true, true⟩
  let data ← mapSection w b rdata.2 c.data ⟨false, true⟩
  let bss ← mapSection w b data.2 c.bss ⟨false, true⟩
  Prog.failIf (bss.2 ≥ 0x78000000) .unexpected
  return ⟨text.1, rdata.1, data.1, bss.1, vaddr, stack1, stack2, stack3⟩

/-- `coff_copy`, where the size is not zero. -/
def coffCopy (w : World) (offset size vaddr : Nat) : Loader Unit :=
  if size = 0 then pure ()
  else do
    let r ← nRead w offset size vaddr
    Prog.failIf (r.1 ≠ 0) (.read r.1)
    Prog.failIf (r.2 ≠ size) .format

/-- The loop over the symbols: base addresses are added and the start
symbol is looked for. -/
def symbolLoop (b : Build) (p : CoffPlaces) : Nat → Nat → Nat → Loader Nat
  | 0, _, start => pure start
  | left + 1, st, start => do
      let val ← rd (st + 8) 4
      let section_ ← rd (st + 12) 2
      let aux ← rd (st + 17) 1
      Prog.failIf (aux ≠ 0) .symbol
      Prog.failIf (section_ = 0) .external
      let base := if section_ = 1 then p.text else if section_ = 2 then p.rdata
        else if section_ = 3 then p.data else if section_ = 4 then p.bss else 0
      let val := (val + base) % u32Top
      let class_ ← rd (st + 16) 1
      let name ← rdBytes st 8
      let found := section_ = 1 ∧ start = 0 ∧ class_ = 2 ∧ name = b.start
      wr (st + 8) 4 val
      symbolLoop b p left (st + 18) (if found then val else start)

/-- `add [target], v` on `n` bytes. -/
def addTo (target n v : Nat) : Loader Unit := do
  let old ← rd target n
  wr target n (old + v)

/-- `coff_relocate` of the two builds. -/
def coffRelocate (b : Build) (base reloc symbol : Nat) : Loader Unit := do
  let value ← rd (symbol + 8) 4
  let offset ← rd reloc 4
  let target := (base + offset) % u32Top
  let type ← rd (reloc + 8) 2
  match b with
  | .dancy64 =>
    if type = 0 then pure ()
    else if type = 1 then addTo target 8 value
    else if type = 2 then addTo target 4 value
    else if type = 3 then addTo target 4 (value + u32Top - base)
    else if type ≤ 9 then addTo target 4 (value + 2 * u32Top - (target + type))
    else Prog.fail .halt
  | .dancy32 =>
    if type = 0 then pure ()
    else if type = 6 then addTo target 4 value
    else if type = 7 then addTo target 4 (value + u32Top - base)
    else if type = 20 then addTo target 4 (value + 2 * u32Top - (target + 4))
    else Prog.fail .halt

def relocLoop (b : Build) (base size symbolCount st : Nat) : Nat → Nat → Loader Unit
  | 0, _ => pure ()
  | left + 1, reloc => do
      let stV ← rd reloc 4
      let stI ← rd (reloc + 4) 4
      Prog.failIf (stV ≥ size) .relocation
      Prog.failIf (stI ≥ symbolCount) .relocation
      let offset ← sum u32Top (stI * 18)
      coffRelocate b base reloc (st + offset)
      relocLoop b base size symbolCount st left (reloc + 10)

/-- What a successful call tells: `*start_addr`, and the `.text` section. -/
structure Loaded where
  (start textVaddr textSize : Nat)

/-- `coff_load_executable` after the places are known. -/
def loadSections (w : World) (b : Build) (f : CoffFile) (c : CoffSizes) (p : CoffPlaces) :
    Loader Loaded := do
  coffCopy w f.text.sec f.text.size p.text
  coffCopy w f.rdata.sec f.rdata.size p.rdata
  coffCopy w f.data.sec f.data.size p.data
  coffCopy w f.text.rel c.textRel p.stack0
  coffCopy w f.rdata.rel c.rdataRel p.stack1
  coffCopy w f.data.rel c.dataRel p.stack2
  let symbols ← sum u32Top (f.symbolCount * 18)
  coffCopy w f.symbolTable symbols p.stack3
  let start ← symbolLoop b p f.symbolCount p.stack3 0
  relocLoop b p.text f.text.size f.symbolCount p.stack3 f.text.nrel p.stack0
  relocLoop b p.rdata f.rdata.size f.symbolCount p.stack3 f.rdata.nrel p.stack1
  relocLoop b p.data f.data.size f.symbolCount p.stack3 f.data.nrel p.stack2
  touch coffAddr coffSize
  Prog.failIf (start < 0x10000000 ∨ start < p.text) .start
  let textEnd ← sum b.sizeTop (p.text + f.text.size)
  Prog.failIf (start ≥ textEnd) .start
  touch p.stack0 c.stack
  return ⟨start, p.text, f.text.size⟩

def coffLoadExecutable (w : World) (b : Build) : Loader Loaded := do
  Prog.failIf (w.pgCr3 = false) .uninitialized
  let obj ← pgMapUser w objAddr 0x1000 ⟨false, true⟩
  Prog.failIf (obj = 0) .memory
  let r ← nRead w 0 180 obj
  Prog.failIf (r.1 ≠ 0) (.read r.1)
  Prog.failIf (r.2 ≠ 180) .size
  coffValidate b obj
  touch coffAddr coffSize
  let f ← rdFile obj
  let c ← computeSizes b f
  let p ← coffAllocate w b c
  touch coffAddr coffSize
  loadSections w b f c p

def LoadState.before (mem : Memory) : LoadState := ⟨mem, [], [], [], 0, 0⟩

/-- Every access so far was to mapped memory of the task between
`0x10000000` and `0x80000000`, data went past the state of the loader, and
every computed size is exact. -/
structure LoadSafe (s : LoadState) : Prop where
  covered : ∀ a ∈ s.log, ∀ x, a.addr ≤ x → x < a.addr + a.size → ∃ r ∈ s.mapped, r.Contains x
  pages : ∀ r ∈ s.mapped, ∀ x, r.Contains x → 0x10000000 ≤ x ∧ x < 0x80000000
  own : ∀ a ∈ s.log, a.kind = .write → a.addr + a.size ≤ coffAddr ∨ coffAddr + coffSize ≤ a.addr
  exact : ∀ p ∈ s.sums, p.1 = p.2

/-- A safe state in which the bytes `X` are mapped. -/
structure Has (X : Nat → Prop) (s : LoadState) : Prop where
  safe : LoadSafe s
  bytes : ∀ x, X x → ∃ r ∈ s.mapped, r.Contains x

variable {X Y : Nat → Prop}

variable {s : LoadState} {addr n vaddr size : Nat} {w : World} {b : Build}

theorem Has.mono (h : Has X s) (hxy : ∀ x, Y x → X x) : Has Y s :=
  ⟨h.safe, fun x hx => h.bytes x (hxy x hx)⟩

def In (X : Nat → Prop) (addr n : Nat) : Prop := ∀ x, addr ≤ x → x < addr + n → X x

/-- Data does not meet the state of the loader. -/
def Past (addr n : Nat) : Prop := addr + n ≤ coffAddr ∨ coffAddr + coffSize ≤ addr

theorem Has.access (h : Has X s) {a : Access} (hin : In X a.addr a.size)
    (hown : a.kind = .write → Past a.addr a.size) {mem : Memory} {reads : Nat} :
    Has X { s with mem := mem, log := a :: s.log, reads := reads } := by
  refine ⟨⟨fun a' ha' => ?_, h.safe.pages, fun a' ha' => ?_, h.safe.exact⟩, h.bytes⟩
  · rcases mem_cons.mp ha' with rfl | ha'
    · exact fun x h1 h2 => h.bytes x (hin x h1 h2)
    · exact h.safe.covered a' ha'
  · rcases mem_cons.mp ha' with rfl | ha'
    · exact hown
    · exact h.safe.own a' ha'

/-! ## Steps -/

theorem rd_spec (h : In X addr n) :
    Triple (Has X) (rd addr n) (fun v s => v < 256 ^ n ∧ Has X s) LoadSafe :=
  .act fun s hs => ⟨load_lt s.mem n addr, hs.access (a := ⟨.read, addr, n⟩) h nofun⟩

theorem wr_spec {v : Nat} (h : In X addr n) (hp : Past addr n) :
    Triple (Has X) (wr addr n v) (fun _ => Has X) LoadSafe :=
  .act fun _ hs => hs.access h fun _ => hp

theorem touch_spec (h : In X addr n) :
    Triple (Has X) (touch addr n) (fun _ => Has X) LoadSafe :=
  .act fun _ hs => hs.access (a := ⟨.state, addr, n⟩) h nofun

theorem failIf_spec {c : Prop} [Decidable c] {e : CoffCode} :
    Triple (Has X) (Prog.failIf c e) (fun _ s => ¬c ∧ Has X s) LoadSafe :=
  .failIf fun _ hs => hs.safe

theorem check {c : Prop} [Decidable c] {e : CoffCode} {α : Type} {m : Loader α}
    {Q : α → LoadState → Prop} (h : ¬c → Triple (Has X) m Q LoadSafe) :
    Triple (Has X) (Prog.failIf c e >>= fun _ => m) Q LoadSafe :=
  .step failIf_spec fun _ => h

theorem Has.sum (h : Has X s) {p : Nat × Nat} (hp : p.1 = p.2) :
    Has X { s with sums := p :: s.sums } := by
  refine ⟨⟨h.safe.covered, h.safe.pages, h.safe.own, fun q hq => ?_⟩, h.bytes⟩
  rcases mem_cons.mp hq with rfl | hq
  · exact hp
  · exact h.safe.exact q hq

theorem sum_spec {top exact : Nat} (h : exact < top) :
    Triple (Has X) (sum top exact) (fun v s => v = exact ∧ Has X s) LoadSafe :=
  .act fun _ hs => ⟨Nat.mod_eq_of_lt h, hs.sum (Nat.mod_eq_of_lt h)⟩

theorem diff_spec {top a b : Nat} (hb : b ≤ a) (ha : a < top) :
    Triple (Has X) (diff top a b) (fun v s => v = a - b ∧ Has X s) LoadSafe := by
  have hv : (a + top - b) % top = a - b := by
    rw [show a + top - b = a - b + top by omega, Nat.add_mod_right, Nat.mod_eq_of_lt (by omega)]
  exact .act fun _ hs => ⟨hv, hs.sum (by omega)⟩

def Pages (vaddr size x : Nat) : Prop := vaddr ≤ x ∧ x < vaddr + size

theorem pgMapUser_spec {type : MapType} (hv : vaddr % 0x1000 = 0) (hs : size % 0x1000 = 0)
    (hlo : 0x10000000 ≤ vaddr) (hhi : vaddr + size ≤ 0x80000000) :
    Triple (Has X) (pgMapUser w vaddr size type)
      (fun v s => Has X s ∧ (v ≠ 0 → v = vaddr ∧ Has (fun x => X x ∨ Pages vaddr size x) s))
      LoadSafe := by
  refine .act fun s h => ?_
  split
  · exact ⟨h, fun h0 => absurd rfl h0⟩
  split
  · have hpage : ∀ x, Mapping.Contains ⟨vaddr, size, type⟩ x ↔ Pages vaddr size x := by
      simp only [Mapping.Contains, Pages]
      omega
    have hold : ∀ {x}, (∃ r ∈ s.mapped, r.Contains x) →
        ∃ r ∈ (⟨vaddr, size, type⟩ :: s.mapped : List Mapping), r.Contains x :=
      fun ⟨r, hr, hx⟩ => ⟨r, mem_cons_of_mem _ hr, hx⟩
    have hsafe : ∀ mem maps, LoadSafe { s with
        maps := maps, mapped := ⟨vaddr, size, type⟩ :: s.mapped, mem := mem } := by
      intro mem maps
      refine ⟨fun a ha x h1 h2 => hold (h.safe.covered a ha x h1 h2), fun r hr => ?_,
        h.safe.own, h.safe.exact⟩
      rcases mem_cons.mp hr with rfl | hr
      · intro x hx
        have := (hpage x).mp hx
        unfold Pages at this
        omega
      · exact h.safe.pages r hr
    refine ⟨⟨hsafe _ _, fun x hx => hold (h.bytes x hx)⟩, fun _ => ⟨rfl, hsafe _ _, ?_⟩⟩
    rintro x (hx | hx)
    · exact hold (h.bytes x hx)
    · exact ⟨_, mem_cons_self .., (hpage x).mpr hx⟩
  · exact ⟨⟨⟨h.safe.covered, h.safe.pages, h.safe.own, h.safe.exact⟩, h.bytes⟩,
      fun h0 => absurd rfl h0⟩

theorem nRead_spec {offset buffer : Nat} (h : In X buffer size) (hp : Past buffer size) :
    Triple (Has X) (nRead w offset size buffer) (fun _ => Has X) LoadSafe :=
  .act fun _ hs => hs.access h fun _ => hp

theorem coffCopy_spec {offset : Nat} (h : size ≠ 0 → In X vaddr size ∧ Past vaddr size) :
    Triple (Has X) (coffCopy w offset size vaddr) (fun _ => Has X) LoadSafe := by
  unfold coffCopy
  split
  · exact .pure fun _ => id
  next h0 =>
    obtain ⟨hin, hp⟩ := h h0
    refine .bind (nRead_spec hin hp) fun r => ?_
    refine check fun _ => ?_
    exact failIf_spec.weaken (fun _ => id) fun _ _ hq => hq.2

/-! ## The header -/

def ObjPage (x : Nat) : Prop := Pages objAddr 0x1000 x

theorem rdBytes_spec : ∀ {n addr : Nat}, In X addr n →
    Triple (Has X) (rdBytes addr n) (fun _ => Has X) LoadSafe := by
  intro n
  induction n with
  | zero => intro addr _; exact .pure fun _ => id
  | succ n ih =>
    intro addr h
    refine .step (rd_spec fun x h1 h2 => h x h1 (by omega)) fun b _ => ?_
    refine .bind (ih fun x h1 h2 => h x (by omega) (by omega)) fun rest => ?_
    exact .pure fun _ => id

theorem checkName_spec {name : String} (h : In X addr (nameBytes name).length) :
    Triple (Has X) (checkName addr name) (fun _ => Has X) LoadSafe :=
  .bind (rdBytes_spec h) fun _ => failIf_spec.weaken (fun _ => id) fun _ _ hq => hq.2

theorem checkFlag_spec {flag : Nat} (h : In X addr 4) :
    Triple (Has X) (checkFlag addr flag) (fun _ => Has X) LoadSafe :=
  .step (rd_spec h) fun _ _ =>
    failIf_spec.weaken (fun _ => id) fun _ _ hq => hq.2

theorem ObjPage.mem {k : Nat} (h : k + n ≤ 0x1000) : In ObjPage (objAddr + k) n := by
  intro x h1 h2
  unfold ObjPage Pages
  omega

theorem coffValidate_spec :
    Triple (Has ObjPage) (coffValidate b objAddr) (fun _ => Has ObjPage) LoadSafe := by
  refine .step (rd_spec (.mem (k := 0) (by decide))) fun _ _ => ?_
  refine check fun _ => ?_
  refine .step (rd_spec (.mem (by decide))) fun _ _ => ?_
  refine check fun _ => ?_
  refine .step (rd_spec (.mem (by decide))) fun _ _ => ?_
  refine check fun _ => ?_
  iterate 4
    refine .bind (checkName_spec (.mem (by decide))) fun _ => ?_
  refine .bind (checkFlag_spec (.mem (k := 56) (by decide))) fun _ => ?_
  refine .bind (checkFlag_spec (.mem (k := 96) (by decide))) fun _ => ?_
  refine .bind (checkFlag_spec (.mem (k := 136) (by decide))) fun _ => ?_
  exact checkFlag_spec (.mem (k := 176) (by decide))

/-- The sizes of the types of a section header. -/
def Section.Ok (c : Section) : Prop := c.size < u32Top ∧ c.nrel < 0x10000

structure CoffFile.Ok (f : CoffFile) : Prop where
  symbolCount : f.symbolCount < u32Top
  text : f.text.Ok
  rdata : f.rdata.Ok
  data : f.data.Ok
  bss : f.bss.Ok

theorem rdSection_spec {i : Nat} (hi : i < 4) :
    Triple (Has ObjPage) (rdSection objAddr i) (fun c s => c.Ok ∧ Has ObjPage s) LoadSafe := by
  have hmem : ∀ {k n : Nat}, k + n ≤ 40 → In ObjPage (objAddr + 20 + i * 40 + k) n := by
    intro k n hk
    have := ObjPage.mem (k := 20 + i * 40 + k) (n := n) (by omega)
    rwa [← add_assoc, ← add_assoc] at this
  refine .step (rd_spec (hmem (by omega))) fun size hsize => ?_
  refine .step (rd_spec (hmem (by omega))) fun _ _ => ?_
  refine .step (rd_spec (hmem (by omega))) fun _ _ => ?_
  refine .step (rd_spec (hmem (by omega))) fun nrel hnrel => ?_
  exact .pure fun s hs => ⟨⟨hsize, hnrel⟩, hs⟩

theorem rdFile_spec :
    Triple (Has ObjPage) (rdFile objAddr) (fun f s => f.Ok ∧ Has ObjPage s) LoadSafe := by
  refine .step (rd_spec (.mem (by decide))) fun _ _ => ?_
  refine .step (rd_spec (.mem (by decide))) fun count hcount => ?_
  refine check fun _ => ?_
  refine .step (rdSection_spec (by decide)) fun text htext => ?_
  refine .step (rdSection_spec (by decide)) fun rdata hrdata => ?_
  refine .step (rdSection_spec (by decide)) fun data hdata => ?_
  refine .step (rdSection_spec (by decide)) fun bss hbss => ?_
  refine check fun _ => ?_
  exact .pure fun s hs => ⟨⟨hcount, htext, hrdata, hdata, hbss⟩, hs⟩

structure SizesOk (f : CoffFile) (c : CoffSizes) : Prop where
  text : c.text % 0x1000 = 0 ∧ f.text.size ≤ c.text
  rdata : c.rdata % 0x1000 = 0 ∧ f.rdata.size ≤ c.rdata
  data : c.data % 0x1000 = 0 ∧ f.data.size ≤ c.data
  bss : c.bss % 0x1000 = 0 ∧ 0x1000 ≤ c.bss
  total : c.text + c.rdata + c.data + c.bss ≤ 0x60000000
  stack : c.stack % 0x1000 = 0 ∧ 0x1000 < c.stack ∧ c.stack ≤ 0x08000000
  rels : c.textRel = f.text.nrel * 10 ∧ c.rdataRel = f.rdata.nrel * 10 ∧
    c.dataRel = f.data.nrel * 10
  room : 0x1000 + c.textRel + c.rdataRel + c.dataRel + f.symbolCount * 18 ≤ c.stack

theorem alignSize_spec (h : size + 0xFFF < u64Top) :
    Triple (Has X) (alignSize size)
      (fun v s => v = (size + 0xFFF) / 0x1000 * 0x1000 ∧ Has X s) LoadSafe := by
  refine .step (sum_spec h) fun v hv => ?_
  exact .pure fun s hs => ⟨by rw [hv], hs⟩

theorem Build.sizeTop_ge (b : Build) : u32Top ≤ b.sizeTop := by
  cases b <;> decide

variable {f : CoffFile} {c : CoffSizes}

theorem computeSizes_spec (hf : f.Ok) :
    Triple (Has X) (computeSizes b f) (fun c s => SizesOk f c ∧ Has X s) LoadSafe := by
  obtain ⟨hcount, ⟨ht, htn⟩, ⟨hr, hrn⟩, ⟨hd, hdn⟩, ⟨hb, -⟩⟩ := hf
  have htop := b.sizeTop_ge
  unfold u32Top at hcount ht hr hd hb htop
  refine .step (alignSize_spec (by unfold u64Top; omega)) fun text h1 => ?_
  refine .step (alignSize_spec (by unfold u64Top; omega)) fun rdata h2 => ?_
  refine .step (alignSize_spec (by unfold u64Top; omega)) fun data h3 => ?_
  refine .step (alignSize_spec (by unfold u64Top; omega)) fun bss h4 => ?_
  obtain ⟨bss', hb'⟩ : ∃ b', b' = if bss = 0 then 0x1000 else bss := ⟨_, rfl⟩
  have hbss : bss' % 0x1000 = 0 ∧ 0x1000 ≤ bss' ∧ bss' ≤ 0x100000000 := by
    rw [hb']
    split <;> omega
  refine .step (sum_spec (by unfold u64Top; omega)) fun total h5 => ?_
  refine .step (sum_spec (by unfold u64Top; omega)) fun total h6 => ?_
  refine .step (sum_spec (by unfold u64Top; omega)) fun total h7 => ?_
  refine .step (sum_spec (by unfold u64Top; omega)) fun total h8 => ?_
  refine check fun h9 => ?_
  refine .step (sum_spec (by unfold u64Top; omega)) fun symbols h10 => ?_
  refine .step (sum_spec (by unfold u64Top; omega)) fun stack1 h11 => ?_
  refine .step (sum_spec (by unfold u64Top; omega)) fun textRel h12 => ?_
  refine .step (sum_spec (by unfold u64Top; omega)) fun stack2 h13 => ?_
  refine .step (sum_spec (by unfold u64Top; omega)) fun rdataRel h14 => ?_
  refine .step (sum_spec (by unfold u64Top; omega)) fun stack3 h15 => ?_
  refine .step (sum_spec (by unfold u64Top; omega)) fun dataRel h16 => ?_
  refine .step (sum_spec (by unfold u64Top; omega)) fun stack4 h17 => ?_
  refine .step (alignSize_spec (by unfold u64Top; omega)) fun stack h18 => ?_
  refine check fun h19 => ?_
  refine check fun h20 => ?_
  refine .bind (sum_spec (by omega)) fun text' => .lift fun e1 => ?_
  refine .bind (sum_spec (by omega)) fun rdata' => .lift fun e2 => ?_
  refine .bind (sum_spec (by omega)) fun data' => .lift fun e3 => ?_
  refine .bind (sum_spec (by omega)) fun bss'' => .lift fun e4 => ?_
  refine .bind (sum_spec (by omega)) fun stack' => .lift fun e5 => ?_
  refine .bind (sum_spec (by unfold u32Top; omega)) fun textRel' => .lift fun e6 => ?_
  refine .bind (sum_spec (by unfold u32Top; omega)) fun rdataRel' => .lift fun e7 => ?_
  refine .bind (sum_spec (by unfold u32Top; omega)) fun dataRel' => .lift fun e8 => ?_
  refine .pure fun s hs => ⟨⟨?_, ?_, ?_, ?_, ?_, ?_, ?_, ?_⟩, hs⟩ <;> simp only <;> omega

/-- What is mapped after `coff_allocate`. -/
def Areas (c : CoffSizes) (x : Nat) : Prop :=
  Pages (0x80000000 - c.stack) c.stack x ∨ Pages 0x10000000 (c.text + c.rdata + c.data + c.bss) x

theorem areas_state (h : 0x1000 < c.stack) : In (Areas c) coffAddr coffSize := by
  intro x h1 h2
  unfold coffAddr objAddr at h1
  unfold coffAddr objAddr coffSize at h2
  left
  unfold Pages
  omega

structure PlacesOk (c : CoffSizes) (p : CoffPlaces) : Prop where
  text : c.text ≠ 0 → p.text = 0x10000000
  noText : c.text = 0 → p.text = 0
  rdata : c.rdata ≠ 0 → p.rdata = 0x10000000 + c.text
  data : c.data ≠ 0 → p.data = 0x10000000 + c.text + c.rdata
  stack0 : p.stack0 = 0x80000000 - c.stack
  stack1 : p.stack1 = p.stack0 + c.textRel
  stack2 : p.stack2 = p.stack1 + c.rdataRel
  stack3 : p.stack3 = p.stack2 + c.dataRel

theorem mapStack_spec (hv : vaddr % 0x1000 = 0) (hs : size % 0x1000 = 0)
    (hlo : 0x10000000 ≤ vaddr) (hhi : vaddr + size ≤ 0x80000000) :
    Triple (Has X) (mapStack w vaddr size)
      (fun _ => Has fun x => X x ∨ Pages vaddr size x) LoadSafe := by
  unfold mapStack
  split
  · next h0 =>
      refine .pure fun s h => h.mono ?_
      rintro x (hx | hx)
      · exact hx
      · unfold Pages at hx
        omega
  · refine .bind (pgMapUser_spec hv hs hlo hhi) fun v => ?_
    refine Triple.weaken (.failIf fun s h => h.1.safe) (fun _ => id) ?_
    rintro _ s ⟨hne, -, h⟩
    exact (h (by omega)).2

theorem mapSection_spec {type : MapType} (hv : vaddr % 0x1000 = 0) (hs : size % 0x1000 = 0)
    (hlo : 0x10000000 ≤ vaddr) (hhi : vaddr + size ≤ 0x80000000) :
    Triple (Has X) (mapSection w b vaddr size type)
      (fun v s => ((size ≠ 0 → v.1 = vaddr) ∧ (size = 0 → v.1 = 0) ∧ v.2 = vaddr + size) ∧
        Has (fun x => X x ∨ Pages vaddr size x) s) LoadSafe := by
  have htop := b.sizeTop_ge
  unfold u32Top at htop
  unfold mapSection
  split
  · next h0 =>
      refine .pure fun s h => ⟨⟨fun hne => absurd h0 hne, fun _ => rfl, by omega⟩, h.mono ?_⟩
      rintro x (hx | hx)
      · exact hx
      · unfold Pages at hx
        omega
  · next hne =>
    refine .bind (pgMapUser_spec hv hs hlo hhi) fun v => ?_
    refine .bind (Q := fun _ s => Has (fun x => X x ∨ Pages vaddr size x) s) ?_ fun _ => ?_
    · refine Triple.weaken (.failIf fun s h => h.1.safe) (fun _ => id) ?_
      rintro _ s ⟨hne, -, h⟩
      exact (h (by omega)).2
    · refine .step (sum_spec (by omega)) fun next hnext => ?_
      exact .pure fun s h => ⟨⟨fun _ => rfl, fun h0 => absurd h0 hne, hnext⟩, h⟩

theorem coffAllocate_spec (hc : SizesOk f c) :
    Triple (Has ObjPage) (coffAllocate w b c) (fun p s => PlacesOk c p ∧ Has (Areas c) s)
      LoadSafe := by
  obtain ⟨⟨ht, -⟩, ⟨hr, -⟩, ⟨hd, -⟩, ⟨hb, -⟩, htotal, ⟨hs, hs1, hs2⟩, -, hroom⟩ := hc
  have htop := b.sizeTop_ge
  unfold u32Top at htop
  refine .step (diff_spec (by omega) (by omega)) fun vaddr h1 => ?_
  refine .step (diff_spec (by omega) (by omega)) fun size h2 => ?_
  refine .bind (mapStack_spec (by omega) (by omega) (by omega) (by omega)) fun _ => ?_
  refine check fun h3 => ?_
  refine .step (sum_spec (by omega)) fun stack1 h4 => ?_
  refine .step (sum_spec (by omega)) fun stack2 h5 => ?_
  refine .step (sum_spec (by omega)) fun stack3 h6 => ?_
  refine .step (mapSection_spec (by omega) (by omega) (by omega) (by omega)) fun text ⟨h7, h7n, h7'⟩ => ?_
  refine .step (mapSection_spec (by omega) (by omega) (by omega) (by omega)) fun rdata ⟨h8, _, h8'⟩ => ?_
  refine .step (mapSection_spec (by omega) (by omega) (by omega) (by omega)) fun data ⟨h9, _, h9'⟩ => ?_
  refine .step (mapSection_spec (by omega) (by omega) (by omega) (by omega)) fun bss ⟨_, _, h10'⟩ => ?_
  refine check fun _ => ?_
  refine .pure fun s h => ⟨⟨h7, h7n, fun hne => ?_, fun hne => ?_, h1, h4, h5, h6⟩, h.mono ?_⟩
  · rw [← h7']
    exact h8 hne
  · rw [← h7', ← h8']
    exact h9 hne
  -- the page of the header ends the stack area, and the sections follow each other
  intro x hx
  unfold Areas at hx
  unfold ObjPage objAddr
  unfold Pages at hx ⊢
  rcases hx with ⟨hlo, hhi⟩ | ⟨hlo, hhi⟩
  · rcases lt_or_ge x 0x7FFFF000 with hp | hp
    · exact .inl (.inl (.inl (.inl (.inr ⟨by omega, by omega⟩))))
    · exact .inl (.inl (.inl (.inl (.inl ⟨hp, by omega⟩))))
  rcases lt_or_ge x text.2 with ht | ht
  · exact .inl (.inl (.inl (.inr (by omega))))
  rcases lt_or_ge x rdata.2 with hr | hr
  · exact .inl (.inl (.inr (by omega)))
  rcases lt_or_ge x data.2 with hd | hd
  · exact .inl (.inr (by omega))
  · exact .inr (by omega)

/-! ## Symbols and relocations -/

theorem symbolLoop_spec {p : CoffPlaces} : ∀ {left st start : Nat},
    In X st (left * 18) → Past st (left * 18) →
    Triple (Has X) (symbolLoop b p left st start) (fun _ => Has X) LoadSafe := by
  intro left
  induction left with
  | zero => intro st start _ _; exact .pure fun _ => id
  | succ left ih =>
    intro st start h hp
    have hin : ∀ {k n : Nat}, k + n ≤ 18 → In X (st + k) n :=
      fun hk x h1 h2 => h x (by omega) (by omega)
    have hpast : Past (st + 8) 4 := by
      unfold Past at hp ⊢
      omega
    iterate 3
      refine .step (rd_spec (hin (by omega))) fun _ _ => ?_
    refine check fun _ => ?_
    refine check fun _ => ?_
    refine .step (rd_spec (hin (by omega))) fun _ _ => ?_
    refine .bind (rdBytes_spec (hin (k := 0) (by omega))) fun _ => ?_
    refine .bind (wr_spec (hin (by omega)) hpast) fun _ => ?_
    refine ih (fun x h1 h2 => h x (by omega) (by omega)) ?_
    unfold Past at hp ⊢
    omega

theorem addTo_spec {target v : Nat} (h : In X target n) (hp : Past target n) :
    Triple (Has X) (addTo target n v) (fun _ => Has X) LoadSafe :=
  .step (rd_spec h) fun _ _ => wr_spec h hp

/-- The same with a fact about the memory, for steps that only read. -/
def Keep (X : Nat → Prop) (K : Memory → Prop) (s : LoadState) : Prop := Has X s ∧ K s.mem

section keep

variable {K : Memory → Prop}

theorem rd_keep {addr n : Nat} (h : In X addr n) :
    Triple (Keep X K) (rd addr n)
      (fun v s => v < 256 ^ n ∧ Keep X (fun m => K m ∧ load m addr n = v) s) LoadSafe :=
  .act fun s hs => ⟨load_lt s.mem n addr, hs.1.access (a := ⟨.read, addr, n⟩) h nofun, hs.2, rfl⟩

theorem failIf_keep {c : Prop} [Decidable c] {e : CoffCode} :
    Triple (Keep X K) (Prog.failIf c e) (fun _ s => ¬c ∧ Keep X K s) LoadSafe :=
  .failIf fun _ hs => hs.1.safe

theorem sum_keep {top exact : Nat} (h : exact < top) :
    Triple (Keep X K) (sum top exact) (fun v s => v = exact ∧ Keep X K s) LoadSafe :=
  .act fun _ hs => ⟨Nat.mod_eq_of_lt h, hs.1.sum (Nat.mod_eq_of_lt h), hs.2⟩

end keep

/-- The widest relocation patches eight bytes. `v` is the offset that has
been checked. -/
theorem coffRelocate_spec {b : Build} {base reloc symbol v : Nat} (hr : In X reloc 10)
    (hs : In X symbol 18) (hv : base + v < u32Top) (ht : In X (base + v) 8)
    (hp : Past (base + v) 8) :
    Triple (Keep X fun m => load m reloc 4 = v) (coffRelocate b base reloc symbol)
      (fun _ => Has X) LoadSafe := by
  refine .step (rd_keep fun x h1 h2 => hs x (by omega) (by omega)) fun value _ => ?_
  refine .step (rd_keep fun x h1 h2 => hr x h1 (by omega)) fun offset _ => ?_
  refine Triple.pre (.lift ?_)
    fun s h => ⟨h.2.2.symm.trans h.2.1.1, h.1⟩
  rintro rfl
  refine .step (rd_spec fun x h1 h2 => hr x (by omega) (by omega)) fun type _ => ?_
  simp only [Nat.mod_eq_of_lt hv]
  have h8 : ∀ {n v : Nat}, n ≤ 8 →
      Triple (Has X) (addTo (base + offset) n v) (fun _ => Has X) LoadSafe := by
    intro n v hn
    refine addTo_spec (fun x h1 h2 => ht x h1 (by omega)) ?_
    unfold Past at hp ⊢
    omega
  have hfail : Triple (Has X) (Prog.fail .halt : Loader Unit) (fun _ => Has X) LoadSafe :=
    .fail fun _ hs => hs.safe
  cases b with
  | dancy64 =>
    simp only
    split
    · exact .pure fun _ => id
    iterate 3
      split
      · exact h8 (by omega)
    · split
      · exact h8 (by omega)
      · exact hfail
  | dancy32 =>
    simp only
    split
    · exact .pure fun _ => id
    split
    · exact h8 (by omega)
    split
    · exact h8 (by omega)
    · split
      · exact h8 (by omega)
      · exact hfail

/-- The relocations of a section: an offset is checked against the start of
the patched field only, so the eight bytes after the section count too. -/
theorem relocLoop_spec {b : Build} {base size symbolCount st : Nat}
    (hst : In X st (symbolCount * 18)) (hcount : symbolCount * 18 < u32Top)
    (hsec : size ≠ 0 → base + size + 8 ≤ u32Top ∧ In X base (size + 8) ∧ Past base (size + 8)) :
    ∀ {left reloc : Nat}, In X reloc (left * 10) →
    Triple (Has X) (relocLoop b base size symbolCount st left reloc) (fun _ => Has X) LoadSafe := by
  intro left
  induction left with
  | zero => intro reloc _; exact .pure fun _ => id
  | succ left ih =>
    intro reloc h
    refine .bind (Q := fun v s => v < 256 ^ 4 ∧ Keep X (fun m => load m reloc 4 = v) s) ?_
      fun stV => .lift fun _ => ?_
    · exact (rd_keep (K := fun _ => True) fun x h1 h2 => h x h1 (by omega)).weaken
        (fun _ hs => ⟨hs, trivial⟩) fun v s hq => ⟨hq.1, hq.2.1, hq.2.2.2⟩
    refine .step (rd_keep fun x h1 h2 => h x (by omega) (by omega)) fun stI _ => ?_
    refine .step failIf_keep fun _ hv => ?_
    refine .step failIf_keep fun _ hi => ?_
    refine .step (sum_keep (by omega)) fun offset ho => ?_
    obtain ⟨h1, h2, h3⟩ := hsec (by omega)
    refine .bind ?_ fun _ => ih fun x h1 h2 => h x (by omega) (by omega)
    refine Triple.pre (coffRelocate_spec (fun x h1 h2 => h x h1 (by omega))
      (fun x h4 h5 => hst x (by omega) (by omega)) (by omega)
      (fun x h4 h5 => h2 x (by omega) (by omega)) ?_) fun s hs => ⟨hs.1, hs.2.1⟩
    unfold Past at h3 ⊢
    omega

/-- A section and the eight bytes after it are mapped, below the stack
area. -/
theorem loadSections_spec {w : World} {b : Build} {p : CoffPlaces} (hf : f.Ok) (hc : SizesOk f c)
    (hp : PlacesOk c p) :
    Triple (Has (Areas c)) (loadSections w b f c p)
      (fun r s => (r.textVaddr ≤ r.start ∧ r.start < r.textVaddr + r.textSize) ∧ LoadSafe s)
      LoadSafe := by
  have htop := b.sizeTop_ge
  obtain ⟨hcount, ⟨ht, htn⟩, ⟨hr, hrn⟩, ⟨hd, hdn⟩, -⟩ := hf
  obtain ⟨⟨_, hct⟩, ⟨_, hcr⟩, ⟨_, hcd⟩, ⟨_, hcb⟩, htotal, ⟨hs, hs1, hs2⟩, ⟨e1, e2, e3⟩, hroom⟩ := hc
  obtain ⟨pt, pt0, pr, pd, p0, p1, p2, p3⟩ := hp
  unfold u32Top at htop hcount
  have hsec : ∀ (addr n : Nat), 0x10000000 ≤ addr →
      addr + n ≤ 0x10000000 + (c.text + c.rdata + c.data + c.bss) → In (Areas c) addr n ∧ Past addr n := by
    intro addr n h1 h2
    refine ⟨fun x h3 h4 => .inr ⟨by omega, by omega⟩, .inl ?_⟩
    unfold coffAddr objAddr
    omega
  have hstack : ∀ (addr n : Nat), 0x80000000 - c.stack ≤ addr → addr + n ≤ 0x7FFFF000 →
      In (Areas c) addr n ∧ Past addr n := by
    intro addr n h1 h2
    refine ⟨fun x h3 h4 => .inl ⟨by omega, by omega⟩, .inl ?_⟩
    unfold coffAddr objAddr
    omega
  have hsym := hstack p.stack3 (f.symbolCount * 18) (by omega) (by omega)
  iterate 3
    refine .bind (coffCopy_spec fun hne => ?_) fun _ => ?_
    · exact hsec _ _ (by omega) (by omega)
  iterate 3
    refine .bind (coffCopy_spec fun hne => hstack _ _ (by omega) (by omega)) fun _ => ?_
  refine .step (sum_spec (by unfold u32Top; omega)) fun symbols hsymbols => ?_
  refine .bind (coffCopy_spec fun _ => by rw [hsymbols]; exact hsym) fun _ => ?_
  refine .bind (symbolLoop_spec hsym.1 hsym.2) fun start => ?_
  refine .bind (relocLoop_spec hsym.1 (by unfold u32Top; omega) (fun hne => ?_)
    (hstack _ _ (by omega) (by omega)).1) fun _ => ?_
  · have hin := hsec p.text (f.text.size + 8) (by omega) (by omega)
    exact ⟨by unfold u32Top; omega, hin.1, hin.2⟩
  refine .bind (relocLoop_spec hsym.1 (by unfold u32Top; omega) (fun hne => ?_)
    (hstack _ _ (by omega) (by omega)).1) fun _ => ?_
  · have := pr (by omega)
    have hin := hsec p.rdata (f.rdata.size + 8) (by omega) (by omega)
    exact ⟨by unfold u32Top; omega, hin.1, hin.2⟩
  refine .bind (relocLoop_spec hsym.1 (by unfold u32Top; omega) (fun hne => ?_)
    (hstack _ _ (by omega) (by omega)).1) fun _ => ?_
  · have := pd (by omega)
    have hin := hsec p.data (f.data.size + 8) (by omega) (by omega)
    exact ⟨by unfold u32Top; omega, hin.1, hin.2⟩
  refine .bind (touch_spec (areas_state hs1)) fun _ => ?_
  refine check fun h1 => ?_
  refine .step (sum_spec ?_) fun textEnd h2 => ?_
  · by_cases hne : c.text = 0
    · have := pt0 hne
      omega
    · have := pt hne
      omega
  refine check fun h3 => ?_
  refine .bind (touch_spec ?_) fun _ => ?_
  · intro x h1 h2
    exact .inl ⟨by omega, by omega⟩
  exact .pure fun s hs => ⟨⟨by simp only; omega, by simp only; omega⟩, hs.safe⟩

theorem coffLoadExecutable_spec (w : World) (b : Build) :
    Triple (Has fun _ => False) (coffLoadExecutable w b)
      (fun r s => (r.textVaddr ≤ r.start ∧ r.start < r.textVaddr + r.textSize) ∧ LoadSafe s)
      LoadSafe := by
  refine check fun _ => ?_
  refine .bind (pgMapUser_spec (by rfl) (by rfl) (by unfold objAddr; omega)
    (by unfold objAddr; omega)) fun obj => ?_
  refine .bind (Q := fun _ s => obj = objAddr ∧ Has ObjPage s) ?_ fun _ => .lift ?_
  · refine Triple.weaken (.failIf fun s h => h.1.safe)
      (fun _ => id) ?_
    rintro _ s ⟨hne, -, h⟩
    exact ⟨(h hne).1, (h hne).2.mono fun x hx => .inr hx⟩
  rintro rfl
  refine .bind (nRead_spec (.mem (k := 0) (by decide)) (.inl (by decide))) fun r => ?_
  refine check fun _ => ?_
  refine check fun _ => ?_
  refine .bind coffValidate_spec fun _ => ?_
  refine .bind (touch_spec (.mem (by decide))) fun _ => ?_
  refine .step rdFile_spec fun f hf => ?_
  refine .step (computeSizes_spec hf) fun c hc => ?_
  refine .step (coffAllocate_spec hc) fun p hp => ?_
  exact .bind (touch_spec (areas_state hc.stack.2.1)) fun _ => loadSections_spec hf hc hp

/-- **Loading is memory safe.** Whatever the file is and whatever `n_read`
and `pg_map_user` answer: every access is to memory that has been mapped in
the call and lies between `0x10000000` and `0x80000000`, sizes do not wrap,
and the start address of a loaded program is in its `.text` section. -/
theorem coffLoadExecutable_safe (w : World) (b : Build) (mem : Memory) :
    let r := coffLoadExecutable w b (LoadState.before mem)
    (∀ a ∈ r.2.log, ∀ x, a.addr ≤ x → x < a.addr + a.size →
      (∃ m ∈ r.2.mapped, m.Contains x) ∧ 0x10000000 ≤ x ∧ x < 0x80000000) ∧
    (∀ m ∈ r.2.mapped, ∀ x, m.Contains x → 0x10000000 ≤ x ∧ x < 0x80000000) ∧
    (∀ a ∈ r.2.log, a.kind = .write → a.addr + a.size ≤ coffAddr ∨ coffAddr + coffSize ≤ a.addr) ∧
    (∀ p ∈ r.2.sums, p.1 = p.2) ∧
    ∀ l, r.1 = .ok l → l.textVaddr ≤ l.start ∧ l.start < l.textVaddr + l.textSize := by
  intro r
  have hbefore : Has (fun _ => False) (LoadState.before mem) := by
    refine ⟨⟨?_, ?_, ?_, ?_⟩, fun x hx => hx.elim⟩ <;> simp [LoadState.before]
  obtain ⟨hok, herr⟩ := coffLoadExecutable_spec w b _ hbefore
  have hsafe : LoadSafe r.2 := by
    rcases hr : r.1 with e | l
    · exact herr e hr
    · exact (hok l hr).2
  refine ⟨fun a ha x h1 h2 => ?_, hsafe.pages, hsafe.own, hsafe.exact, fun l hl => (hok l hl).1⟩
  obtain ⟨m, hm, hx⟩ := hsafe.covered a ha x h1 h2
  exact ⟨⟨m, hm, hx⟩, hsafe.pages m hm x hx⟩

end Dancy.Exec
