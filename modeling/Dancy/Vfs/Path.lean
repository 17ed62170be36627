import Dancy.Lib.Pieces
import Dancy.Syscall.Arg
import Dancy.Vfs.FatIo

/-!
# Paths of the virtual file system (`vfs/vfs.c`)

`vfs_realpath` writes the path of a node, by its owners in the tree.
`build_vname_locked` takes a name apart: the components are pointers to
strings in two buffers, one for the path of the working directory and one
for the name.
-/

namespace Dancy.Vfs

open Dancy.Lib Dancy.Syscall Dancy.FatVfs Function

/-- The `DE_*` codes of these functions. -/
inductive PathCode where
  | path
  | overflow
  | unexpected

/-- `struct vfs_node`; `tree0` is `tree[0]`, the owner. -/
structure VfsNode where
  name : CString
  tree0 : Option Nat

structure VfsTree where
  node : Nat → VfsNode
  rootNode : Nat

/-- `VFS_PATH_COUNT` and `VFS_PATH_BUFFER`. -/
def vfsPathCount : Nat := 32
def vfsPathBuffer : Nat := 1024

/-- The number of owners above a node, if it is found within so many steps. -/
def VfsTree.depth (t : VfsTree) : Nat → Nat → Option Nat
  | 0, _ => none
  | fuel + 1, n =>
    match (t.node n).tree0 with
    | none => some 0
    | some owner => (t.depth fuel owner).map (· + 1)

/-- The owner so many steps above a node; `none` is a null pointer. -/
def VfsTree.above (t : VfsTree) : Nat → Nat → Option Nat
  | 0, n => some n
  | k + 1, n => (t.node n).tree0.bind (t.above k)

/-- `memset(buffer, 0, size)`. -/
def clearBuffer (b : Memory) (size : Nat) : Memory := fun k => if k < size then 0 else b k

/-- The `do`-`while` loop: the bytes are written at `s`; `none` is an overflow. -/
def putBytes (size : Nat) : List Nat → Memory → Nat → Option (Memory × Nat)
  | [], b, s => some (b, s)
  | c :: rest, b, s =>
    if s + 1 ≥ size then none else putBytes size rest (update b s c) (s + 1)

/-- The loop over the owners: `left` of them are between the name that is
written next and the node. -/
def putNames (t : VfsTree) (node size : Nat) :
    Nat → Memory → Nat → Option (Option PathCode × Memory × Nat)
  | 0, b, s => some (none, b, s)
  | left + 1, b, s =>
    (t.above left node).bind fun n =>
      let name := (t.node n).name.bytes
      if name = [] then some (some .unexpected, clearBuffer b size, s)
      else
        match putBytes size (0x2F :: name) b s with
        | none => some (some .overflow, clearBuffer b size, s)
        | some (b, s) => putNames t node size left b s

/-- `vfs_realpath`; `none` is a walk to the top that does not end. -/
def vfsRealpath (t : VfsTree) (node : Option Nat) (b : Memory) (size fuel : Nat) :
    Option (Option PathCode × Memory) :=
  if size < 2 then
    some (some .overflow, if size ≠ 0 then update b 0 0 else b)
  else
    match node with
    | none => some (none, update b 0 0)
    | some n =>
      (t.depth fuel n).bind fun depth =>
        if depth = 0 ∧ n ≠ t.rootNode then some (some .unexpected, clearBuffer b size)
        else
          let (b, s) := if depth = 0 then (update b 0 0x2F, 1) else (b, 0)
          match putNames t n size depth b s with
          | none => none
          | some (some e, b, _) => some (some e, b)
          | some (none, b, s) => some (none, update b s 0)

/-! ## `build_vname_locked` -/

/-- The two buffers of `vname`. -/
inductive Buffer where
  | wd
  | b

structure Pointer where
  buffer : Buffer
  offset : Nat

/-- The static `vname`. -/
structure Vname where
  components : Nat → Option Pointer
  type : VfsType
  (wd b : Memory)

def Vname.memory (v : Vname) : Buffer → Memory
  | .wd => v.wd
  | .b => v.b

/-- `p[k]`. -/
def Vname.char (v : Vname) (p : Pointer) (k : Nat) : Nat := v.memory p.buffer (p.offset + k)

/-- `vname.components[i] = p`. -/
def Vname.setComponent (v : Vname) (i : Nat) (p : Option Pointer) : Vname :=
  { v with components := update v.components i p }

/-- `if (w != &vname.wd[i]) vname.components[count++] = w`, and the same for `b`. -/
def Vname.add (v : Vname) (buffer : Buffer) (w i count : Nat) : Vname × Nat :=
  if w ≠ i then (v.setComponent count (some ⟨buffer, w⟩), count + 1) else (v, count)

/-- The loop over the path of the working directory, from `i` on, with the
bytes of the buffer that are left; `none` is a loop that leaves the buffer. -/
def wdLoop : Nat → Vname → Nat → Nat → Nat → Option (Option PathCode × Vname × Nat)
  | 0, _, _, _, _ => none
  | left + 1, v, i, w, count =>
    let c := v.wd i
    if c = 0x2F ∨ c = 0 then
      if count + 4 ≥ vfsPathCount then some (some .path, v, count)
      else
        let (v, count) := { v with wd := update v.wd i 0 }.add .wd w i count
        if c = 0 then some (none, v, count) else wdLoop left v (i + 1) (i + 1) count
    else wdLoop left v (i + 1) w count

/-- The `while` block: the last component, if it is `.` or `..`; `none` is a
null pointer. -/
def checkLast (v : Vname) (count : Nat) : Option (Vname × Nat) :=
  if count = 0 then some (v, count)
  else
    (v.components (count - 1)).bind fun p =>
      if v.char p 0 = 0x2E ∧ v.char p 1 = 0 then
        some ({ v.setComponent (count - 1) none with type := .directory }, count - 1)
      else if v.char p 0 = 0x2E ∧ v.char p 1 = 0x2E ∧ v.char p 2 = 0 then
        let v := { v.setComponent (count - 1) none with type := .directory }
        let count := count - 1
        some (if count > 0 then (v.setComponent (count - 1) none, count - 1) else (v, count))
      else some ({ v with type := .unknown }, count)

/-- A character of the name, or its end, before the `while` block: the vname,
where the next component starts and how many there are. -/
def nameChar (v : Vname) (c i b count : Nat) : Option PathCode × Vname × Nat × Nat :=
  if i + 16 ≥ vfsPathBuffer then (some .path, v, b, count)
  else
    let v := { v with b := update v.b i c }
    if c = 0x2F ∨ c = 0 then
      if count + 4 ≥ vfsPathCount then (some .path, v, b, count)
      else
        let (v, count) := { v with b := update v.b i 0 }.add .b b i count
        (none, v, i + 1, count)
    else (none, v, b, count)

/-- The loop over the name, from `i` on. -/
def nameLoop (name : List Nat) :
    List Nat → Vname → Nat → Nat → Nat → Option (Option PathCode × Vname)
  | [], v, i, b, count =>
    match nameChar v 0 i b count with
    | (some e, v, _) => some (some e, v)
    | (none, v, _, count) =>
      (checkLast v count).map fun (v, _) =>
        (none, if i > 0 ∧ name.getD (i - 1) 0 = 0x2F then { v with type := .directory } else v)
  | c :: rest, v, i, b, count =>
    match nameChar v c i b count with
    | (some e, v, _) => some (some e, v)
    | (none, v, b, count) =>
      (checkLast v count).bind fun (v, count) => nameLoop name rest v (i + 1) b count

/-- The components of the working directory, for a name that is not absolute. -/
def wdComponents (t : VfsTree) (wdNode : Option Nat) (name : CString) (fuel : Nat) (v : Vname) :
    Option (Option PathCode × Vname × Nat) :=
  if name.bytes.head? = some 0x2F then some (none, v, 0)
  else
    match vfsRealpath t wdNode v.wd (vfsPathBuffer - 16) fuel with
    | none => none
    | some (some e, wd) => some (some e, { v with wd := wd }, 0)
    | some (none, wd) => wdLoop vfsPathBuffer { v with wd := wd } 0 0 0

/-- `build_vname_locked`, with the working directory of the task; `none` is
a walk that does not end. -/
def buildVnameLocked (t : VfsTree) (wdNode : Option Nat) (name : CString) (fuel : Nat)
    (v : Vname) : Option (Option PathCode × Vname) :=
  let v := { v with
    components := fun i => if i < vfsPathCount then none else v.components i
    type := .unknown }
  if name.bytes = [] then some (some .path, v)
  else
    match wdComponents t wdNode name fuel v with
    | none => none
    | some (some e, v, _) => some (some e, v)
    | some (none, v, count) => nameLoop name.bytes name.bytes v 0 0 count

end Dancy.Vfs
