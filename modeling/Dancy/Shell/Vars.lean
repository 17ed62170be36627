import Mathlib.Data.List.Basic
import Mathlib.Data.List.Induction

/-!
# The variables of the shell (`dsh/var.c`)

`dsh_var_array` is an array of `dsh_var_end` entries; the entries in use
come first and a null `data[0]` ends them. A variable has its string
`NAME=VALUE` in `data[0]`; while a command with a temporary value runs, the
temporary string is in `data[1]`, or in `data[0]` when the name is new.
-/

namespace Dancy.Shell

open List

/-- The characters of a C string, without the NUL. -/
abbrev CStr := List Char

/-- A `char *` of an entry. `torn` is an address of which only the lower
four bytes were overwritten. -/
inductive Ptr where
  | null
  | str (s : CStr)
  | torn
deriving DecidableEq

structure DshVar where
  (data0 data1 : Ptr)
  flags : Nat
deriving DecidableEq

/-- What `dsh_var_init` writes to each entry first. -/
def DshVar.empty : DshVar := ⟨.null, .null, 0⟩

/-- `dsh_var_array` and `dsh_var_end`. Entries from `dshVarEnd` on stand for
the memory that follows the array. -/
structure DshVars where
  array : Nat → DshVar
  dshVarEnd : Nat

/-- The string a pointer leads to. Nothing is known about a torn one. -/
def Ptr.get : Ptr → CStr
  | .str s => s
  | _ => []

def DshVars.set (s : DshVars) (i : Nat) (v : DshVar) : DshVars :=
  { s with array := fun j => if j = i then v else s.array j }

/-- `sizeof(dsh_var_array[0])` -/
def sizeofVar : Nat := 24

/-- `flags & (~0x0C)` -/
def clearTemporary (f : Nat) : Nat := f &&& 0xFFFFFFFFFFFFFFF3

/-- Replaces the lower four bytes of the address `dst` by those of `src`. -/
def tear : Ptr → Ptr → Ptr
  | .null, .null => .null
  | _, _ => .torn

/-- `memmove(v + 0, v + 1, size)`, for a `size` that is a multiple of the
size of an entry, or four more. -/
def moveDown (a : Nat → DshVar) (v size : Nat) : Nat → DshVar := fun j =>
  if j < v then a j
  else if j < v + size / sizeofVar then a (j + 1)
  else if j = v + size / sizeofVar ∧ 4 ≤ size % sizeofVar then
    { a j with data0 := tear (a j).data0 (a (j + 1)).data0 }
  else a j

/-- How many entries from `i` on have a `data[0]`, at most `n`. -/
def usedFrom (a : Nat → DshVar) : Nat → Nat → Nat
  | 0, _ => 0
  | n + 1, i => if (a i).data0 = .null then 0 else usedFrom a n (i + 1) + 1

/-! ## Reading -/

/-- The body of the loop of `dsh_environ`: the entry after it and the
string it adds. -/
def environEntry (v : DshVar) : DshVar × Option Ptr :=
  if v.flags &&& 4 ≠ 0 then
    ({ v with flags := v.flags ||| 8 }, some (if v.data1 ≠ .null then v.data1 else v.data0))
  else if v.flags &&& 1 ≠ 0 then (v, some v.data0)
  else (v, none)

def environFrom (s : DshVars) : Nat → Nat → DshVars × List Ptr
  | 0, _ => (s, [])
  | n + 1, i =>
    if (s.array i).data0 = .null then (s, [])
    else
      let r := environEntry (s.array i)
      let t := environFrom (s.set i r.1) n (i + 1)
      (t.1, r.2.toList ++ t.2)

def dshEnviron (s : DshVars) : DshVars × List Ptr :=
  environFrom s (s.dshVarEnd - 1) 0

/-- `NAME=` stands at the start of the string. -/
def IsVar (name e : CStr) : Prop := (name ++ ['=']) <+: e

instance (name e : CStr) : Decidable (IsVar name e) :=
  inferInstanceAs (Decidable ((name ++ ['=']) <+: e))

/-- The string that `dsh_var_read` and the environment take. -/
def DshVar.current (v : DshVar) : Ptr :=
  if v.data1 ≠ .null then v.data1 else v.data0

def readFrom (a : Nat → DshVar) (name : CStr) : Nat → Nat → Option CStr
  | 0, _ => none
  | n + 1, i =>
    if (a i).data0 = .null then none
    else if IsVar name (a i).current.get then
      some ((a i).current.get.drop (name.length + 1))
    else readFrom a name n (i + 1)

def dshVarRead (s : DshVars) (name : CStr) : Option CStr :=
  if '=' ∈ name then none else readFrom s.array name s.dshVarEnd 0

/-! ## Writing -/

def isLetter (c : Char) : Bool :=
  ('a' ≤ c && c ≤ 'z') || ('A' ≤ c && c ≤ 'Z')

def isDigit (c : Char) : Bool := '0' ≤ c && c ≤ '9'

/-- The loop over `name`, and that it is not empty. -/
def validName : CStr → Bool
  | [] => false
  | c :: cs => (c = '_' || isLetter c) && cs.all fun c => isDigit c || c = '_' || isLetter c

/-- The first entry that is free or holds the variable. -/
def findFrom (a : Nat → DshVar) (name : CStr) : Nat → Nat → Option Nat
  | 0, _ => none
  | n + 1, i =>
    if (a i).data0 = .null ∨ IsVar name (a i).data0.get then some i
    else findFrom a name n (i + 1)

def findVar (s : DshVars) (name : CStr) : Option Nat :=
  findFrom s.array name (s.dshVarEnd - 1) 0

/-- The part of `dsh_var_write` for a null `value`. -/
def writeFlags (s : DshVars) (i flags : Nat) : DshVars :=
  let v := s.array i
  if v.data0 = .null then s
  else
    let f := (v.flags &&& 0xFFFFFFFFFFFFFFFC) ||| (flags &&& 3)
    if f &&& 2 ≠ 0 then
      let s := s.set i DshVar.empty
      let size := sizeofVar + sizeofVar * usedFrom s.array s.dshVarEnd (i + 1)
      { s with array := moveDown s.array i size }
    else s.set i { v with flags := f }

/-- The part of `dsh_var_write` that stores `data`. -/
def writeData (v : DshVar) (data : CStr) (flags : Nat) : DshVar :=
  let f := v.flags ||| (flags &&& 1)
  if flags &&& 4 = 0 then
    ⟨.str data, .null, f &&& 0xFFFFFFFFFFFFFFFB⟩
  else if f &&& 4 ≠ 0 ∧ v.data1 = .null then
    ⟨.str data, .null, f ||| 4⟩
  else if v.data0 = .null then ⟨.str data, .null, f ||| 4⟩
  else ⟨v.data0, .str data, f ||| 4⟩

/-- `dsh_var_write` with a name. `mem` tells if `malloc` succeeds; the index
of the entry stands for the pointer that is returned. -/
def dshVarWrite (mem : Bool) (s : DshVars) (name : CStr)
    (value : Option CStr) (flags : Nat) : DshVars × Option Nat :=
  if validName name = false then (s, none)
  else if mem = false then (s, none)
  else
    match findVar s name with
    | none => (s, none)
    | some i =>
      match value with
      | none => (writeFlags s i flags, some i)
      | some value =>
        (s.set i (writeData (s.array i) (name ++ '=' :: value) flags), some i)

/-- The body of the loop of `dsh_var_write` for a null `name`, which is at
`i`. `size` is not set back between two entries. -/
def undoEntry (s : DshVars) (size i : Nat) : DshVars × Nat :=
  let v := s.array i
  let f := clearTemporary v.flags
  if v.flags &&& 4 = 0 ∨ v.flags &&& 8 = 0 then
    if v.data1 = .null then (s.set i { v with flags := f }, size)
    else (s.set i ⟨v.data1, .null, f⟩, size)
  else if v.data1 ≠ .null then
    (s.set i ⟨v.data0, .null, f⟩, size)
  else
    let s := s.set i ⟨.null, .null, f⟩
    let size := size + sizeofVar * usedFrom s.array s.dshVarEnd (i + 1)
    ({ s with array := moveDown s.array i size }, size)

def undoFrom (s : DshVars) (size : Nat) : Nat → Nat → DshVars
  | 0, _ => s
  | n + 1, i =>
    if (s.array i).data0 = .null then s
    else
      let r := undoEntry s size i
      undoFrom r.1 r.2 n (i + 1)

/-- `dsh_var_write(NULL, NULL, 0)`; the `default_size` is 4. -/
def dshVarUndo (s : DshVars) : DshVars :=
  undoFrom s 4 (s.dshVarEnd - 1) 0

/-- A word `NAME=VALUE` in front of a command, and whether there is memory
when it is written. -/
structure Assign where
  (name value : CStr)
  mem : Bool

/-- The assignments in front of a command, in order. The command does not
run when one of them cannot be written. -/
def assignAll (s : DshVars) : List Assign → Option DshVars
  | [] => some s
  | a :: l =>
    match dshVarWrite a.mem s a.name (some a.value) 4 with
    | (_, none) => none
    | (s, some _) => assignAll s l

/-- A command after its assignments: a program is started with
`dsh_environ`, a builtin command is not. -/
def runCommand (s : DshVars) (program : Bool) : DshVars :=
  if program then (dshEnviron s).1 else s

/-- The entries in use, with their values and flags. -/
def entriesFrom (a : Nat → DshVar) : Nat → Nat → List DshVar
  | 0, _ => []
  | n + 1, i =>
    if (a i).data0 = .null then [] else a i :: entriesFrom a n (i + 1)

def DshVars.store (s : DshVars) : List DshVar :=
  entriesFrom s.array s.dshVarEnd 0

/-- A new array, with the strings of `environ` as far as they fit. -/
def dshVarInit (environ : List CStr) : DshVars where
  array i := match environ[i]? with
    | some e => ⟨.str e, .null, 1⟩
    | none => DshVar.empty
  dshVarEnd := environ.length + 1024

/-! ## Pipelines and lists of the shell (`dsh/parser.c`) -/

/-- `struct command`; `moved` tells that `argv` is not `_argv` any more. -/
structure Command where
  argv : Option (List CStr)
  moved : Bool
  var : Option CStr
  glPathc : Nat
  op : CStr
  value : Int
deriving DecidableEq

inductive Access where
  | readOnly
  | writeOnly
  | readWrite
deriving DecidableEq

/-- The flags of `open`. -/
structure OpenFlags where
  access : Access
  (creat trunc append : Bool)

def INT_MAX : Int := 2147483647

/-- An entry of `fd_array`: `fd1` takes the place of `fd0`. -/
structure Redirection where
  (fd0 fd1 : Int)

structure Invocation where
  argv : List CStr
  redirections : List Redirection
  (fdOut fdErr pipeFdIn pipeFdOut : Int)
  noWait : Bool
  pgroup : Int

/-- The state of the shell. `mem` tells if the allocations to come succeed,
and `world` is all that is outside of it. -/
structure Session (σ : Type) where
  vars : DshVars
  mem : Nat → Bool
  (dshInteractive dshOperateState : Bool)
  dshExitCode : Int
  world : σ

variable {σ : Type}

/-- The system, and what `handle_builtin` or `dsh_execute` does with a command;
the number is the process, or zero. -/
structure System (σ : Type) where
  openFile : CStr → OpenFlags → σ → Option Nat × σ
  getfl : Int → σ → Option Access
  pipe : σ → Option (Int × Int) × σ
  setCloexec : Int → σ → Bool × σ
  execute : Invocation → Session σ → Session σ × Int

/-- `dsh_var_write(NULL, NULL, 0)` -/
def Session.undo (sh : Session σ) : Session σ := { sh with vars := dshVarUndo sh.vars }

def Session.exit (sh : Session σ) (code : Int) : Session σ := { sh with dshExitCode := code }

def Session.parsingError (sh : Session σ) : Session σ :=
  { sh with
    dshOperateState := if sh.dshInteractive then sh.dshOperateState else false
    dshExitCode := 2 }

/-! ## A part of a pipeline -/

/-- What the loop over the operators of a part has set up. -/
structure Part where
  fdArray : List Redirection
  (fdOut fdErr : Int)

/-- An entry of `fd_array`, and the descriptors of a builtin. -/
def Part.redirect (part : Part) (fd0 fd1 : Int) : Part where
  fdArray := part.fdArray ++ [⟨fd0, fd1⟩]
  fdOut := if fd0 = 1 then fd1 else part.fdOut
  fdErr := if fd0 = 2 then fd1 else part.fdErr

/-- The flags of an operator that opens a file. -/
def openFlags (op : CStr) : Option OpenFlags :=
  if op = "<".toList then some ⟨.readOnly, false, false, false⟩
  else if op = "<>".toList then some ⟨.readWrite, true, false, false⟩
  else if op = ">".toList ∨ op = "&>".toList then some ⟨.writeOnly, true, true, false⟩
  else if op = ">>".toList ∨ op = "&>>".toList then some ⟨.writeOnly, true, false, true⟩
  else none

def digitsValue (word : CStr) : Int :=
  if word = [] ∨ word.any (fun c => c < '0' || c > '9') then -1
  else word.foldl (fun v c => min (v * 10 + (c.toNat - 48)) 0xFFFF) 0

/-- The descriptor behind `<&` or `>&`; a minus sign closes. -/
def fdWord (word : CStr) : Int := if word = ['-'] then INT_MAX else digitsValue word

/-- A redirection, whose operator is followed by the word; `none` is an error. -/
def redirectWord (sys : System σ) (c : Command) (word : CStr) (part : Part) (sh : Session σ) :
    Option Part × Session σ :=
  match openFlags c.op with
  | some flags =>
    if c.op.head? = some '&' ∧ part.fdArray.length + 1 ≥ 16 then (none, sh)
    else
      let r := sys.openFile word flags sh.world
      let sh := { sh with world := r.2 }
      match r.1 with
      | none => (none, sh)
      | some fd1 =>
        if c.op.head? = some '&' then (some ((part.redirect 1 fd1).redirect 2 fd1), sh)
        else
          let fd0 := if c.value ≥ 0 then c.value else if c.op.head? = some '<' then 0 else 1
          (some (part.redirect fd0 fd1), sh)
  | none =>
    let fd0 := if c.value ≥ 0 then c.value else if c.op = "<&".toList then 0 else 1
    let fd1 := fdWord word
    if fd1 < 0 then (none, sh)
    else
      match if fd1 = INT_MAX then some .readWrite else sys.getfl fd1 sh.world with
      | none => (none, sh)
      | some mode =>
        if mode ≠ .readWrite ∧ mode ≠ (if c.op = "<&".toList then .readOnly else .writeOnly) then
          (none, sh)
        else (some (part.redirect fd0 fd1), sh)

def isRedirection (op : CStr) : Bool :=
  (openFlags op).isSome || op = "<&".toList || op = ">&".toList

/-- `NAME=VALUE` in front of a command. -/
def assignVar (var : CStr) (sh : Session σ) : Bool × Session σ :=
  if '=' ∈ var then
    let r := dshVarWrite (sh.mem 0) sh.vars (var.takeWhile (· ≠ '='))
      (some ((var.dropWhile (· ≠ '=')).drop 1)) 4
    (r.2.isSome, { sh with vars := r.1, mem := fun i => sh.mem (i + 1) })
  else (false, sh)

/-- The loop over the operators of a part: the commands as it leaves them. A
word that is taken is taken from the front of its command. -/
def opLoop (sys : System σ) : List Command → Part → Session σ → Option (List Command × Part) × Session σ
  | [], part, sh => (some ([], part), sh)
  | c :: cs, part, sh =>
    if c.argv ≠ none then
      let r := opLoop sys cs part sh
      (r.1.map fun t => (c :: t.1, t.2), r.2)
    else if part.fdArray.length ≥ 16 then (none, sh)
    else if isRedirection c.op then
      match cs with
      | [] => (none, sh)
      | w :: cs =>
        match w.argv with
        | some (word :: words) =>
          if w.glPathc > 1 then (none, sh)
          else
            match redirectWord sys c word part sh with
            | (none, sh) => (none, sh)
            | (some part, sh) =>
              let r := opLoop sys cs part sh
              let w := { w with argv := some words, moved := true }
              (r.1.map fun t => (c :: w :: t.1, t.2), r.2)
        | _ => (none, sh)
    else
      match c.var with
      | none => (none, sh)
      | some var =>
        let r := assignVar var sh
        if r.1 then
          let r := opLoop sys cs part r.2
          (r.1.map fun t => (c :: t.1, t.2), r.2)
        else (none, r.2)

/-- `append_arg` for the words of a command: whether there is memory for them. -/
def appendArgs (main : Command) (words : List CStr) (sh : Session σ) : Option Command × Session σ :=
  match words with
  | [] => (some main, sh)
  | word :: words =>
    if main.moved then (none, sh.parsingError)
    else if sh.mem 0 = false then (none, { sh with mem := fun i => sh.mem (i + 1) }.parsingError)
    else
      appendArgs { main with argv := main.argv.map (· ++ [word]) } words
        { sh with mem := fun i => sh.mem (i + 1) }

/-- The loop that collects the words in the first command that has some. -/
def argLoop : List Command → (main : Option Command) → Session σ → Option (Option Command) × Session σ
  | [], main, sh => (some main, sh)
  | c :: cs, main, sh =>
    match c.argv with
    | some (word :: words) =>
      match main with
      | none => argLoop cs (some c) sh
      | some m =>
        match appendArgs m (word :: words) sh with
        | (none, sh) => (none, sh)
        | (some m, sh) => argLoop cs (some m) sh
    | _ => argLoop cs main sh

/-- `parse_pipeline_part`: whether its set-up succeeds, and the process. -/
def parsePipelinePart (sys : System σ) (commands : List Command) (pipeFdIn pipeFdOut : Int)
    (noWait : Bool) (pgroup : Int) (sh : Session σ) : Option Int × Session σ :=
  match opLoop sys commands ⟨[], pipeFdOut, -1⟩ sh with
  | (none, sh) => (none, sh.exit 1)
  | (some (commands, part), sh) =>
    match argLoop commands none sh with
    | (none, sh) => (none, sh.exit 1)
    | (some none, sh) => (some 0, sh)
    | (some (some main), sh) =>
      let r := sys.execute
        ⟨main.argv.getD [], part.fdArray, part.fdOut, part.fdErr, pipeFdIn, pipeFdOut,
          noWait || pipeFdOut ≥ 0, pgroup⟩ sh
      (some r.2, r.1)

def Command.isOp (c : Command) (op : CStr) : Bool := c.argv = none && c.op = op

/-- A pipe with its flags; `false` is an error of the flags. -/
def makePipe (sys : System σ) (sh : Session σ) : Option ((Int × Int) × Bool) × Session σ :=
  let r := sys.pipe sh.world
  match r.1 with
  | none => (none, { sh with world := r.2 })
  | some fd =>
    let r0 := sys.setCloexec fd.1 r.2
    let r1 := sys.setCloexec fd.2 r0.2
    (some (fd, r0.1 && r1.1), { sh with world := r1.2 })

/-- The loop that makes the pipes: the parts, each with the descriptors of the
pipe in front of it, and whether there was no error. -/
def pipeLoop (sys : System σ) : List Command → (cur : List Command) → (fd : Int × Int) →
    (n : Nat) → Session σ → Bool × List (List Command × (Int × Int)) × Session σ
  | [], cur, fd, _, sh => (true, [(cur, fd)], sh)
  | c :: cs, cur, fd, n, sh =>
    if c.isOp ['|'] then
      if n ≥ 16 then (false, [(cur, fd)], sh)
      else
        match makePipe sys sh with
        | (none, sh) => (false, [(cur, fd)], sh)
        | (some (fd', ok), sh) =>
          let r := pipeLoop sys cs [] fd' (n + 1) sh
          (ok && r.1, (cur, fd) :: r.2.1, r.2.2)
    else pipeLoop sys cs (cur ++ [c]) fd n sh

/-- The loop over the parts: whether the set-up of all of them succeeds. -/
def partsLoop (sys : System σ) (noWait : Bool) :
    List (List Command × (Int × Int)) → (pgroup : Int) → Session σ → Bool × Session σ
  | [], _, sh => (true, sh)
  | (commands, fd) :: parts, pgroup, sh =>
    let pipeFdOut := (parts.head?.map fun part => part.2.2).getD (-1)
    match parsePipelinePart sys commands fd.1 pipeFdOut noWait pgroup sh with
    | (none, sh) => (false, sh)
    | (some pid, sh) =>
      if sh.dshOperateState = false then (true, sh)
      else partsLoop sys noWait parts (if pgroup = 0 then pid else pgroup) sh

/-- `parse_pipeline`: whether it returns zero. -/
def parsePipeline (sys : System σ) (commands : List Command) (noWait : Bool) (sh : Session σ) :
    Bool × Session σ :=
  let r := pipeLoop sys commands [] (-1, -1) 1 sh
  if r.1 then partsLoop sys noWait r.2.1 0 r.2.2 else (false, r.2.2.exit 1)

/-- A pipeline that was executed: whether it failed before it was, and the
state behind it. -/
structure Ran (σ : Type) where
  pipeline : List Command
  (noWait failed : Bool)
  after : Session σ

def runPipeline (sys : System σ) (commands : List Command) (noWait : Bool) (sh : Session σ) : Ran σ :=
  let r := parsePipeline sys commands noWait sh
  ⟨commands, noWait, !r.1, if r.1 && noWait then r.2.exit 0 else r.2⟩

/-- The operators that end a pipeline; `"\\n"` stands for the end of the line. -/
def isListOp (op : CStr) : Bool :=
  op = "\\n".toList || op = "&".toList || op = "&&".toList || op = ";".toList || op = "||".toList

/-- `128 + SIGINT` -/
def interrupted : Int := 130

/-- What `parse_list` returns and does. `ran` is a history. -/
structure Listed (σ : Type) where
  result : Int
  sh : Session σ
  ran : List (Ran σ)

/-- The loop of `parse_list`; `cur` are the commands from `p1` to `p2`. -/
def listLoop (sys : System σ) : List Command → (cur : List Command) → (prevOp : CStr) →
    Session σ → Listed σ
  | [], _, _, sh => ⟨0, sh, []⟩
  | c :: cs, cur, prevOp, sh =>
    if sh.dshOperateState = false then ⟨0, sh, []⟩
    else if isListOp c.op = false then listLoop sys cs (cur ++ [c]) prevOp sh
    else
      let sh := sh.undo
      if cur = [] then
        if (prevOp = "&".toList ∨ prevOp = ";".toList) ∧ c.op = "\\n".toList then ⟨0, sh, []⟩
        else ⟨-1, sh.parsingError, []⟩
      else if prevOp = "&&".toList ∧ sh.dshExitCode ≠ 0 then listLoop sys cs [] c.op sh
      else if prevOp = "||".toList ∧ sh.dshExitCode = 0 then listLoop sys cs [] c.op sh
      else
        let r := runPipeline sys cur (c.op = "&".toList) sh
        if r.failed then ⟨-1, r.after, [r]⟩
        else if r.after.dshExitCode = interrupted then ⟨0, r.after, [r]⟩
        else
          let t := listLoop sys cs [] c.op r.after
          ⟨t.result, t.sh, r :: t.ran⟩

def parseList (sys : System σ) (commands : List Command) (sh : Session σ) : Listed σ :=
  listLoop sys commands [] [] sh

/-! ## The reading -/

/-- A pipeline has commands, and none of them ends it. -/
structure Pipeline where
  commands : List Command
  nonempty : commands ≠ []
  inside : ∀ c ∈ commands, isListOp c.op = false

/-- Pipelines with `&&` and `||` between them. -/
inductive AndOr where
  | single (p : Pipeline)
  | andThen (l : AndOr) (p : Pipeline)
  | orElse (l : AndOr) (p : Pipeline)

/-- What stands behind the last pipeline of the line. -/
inductive End where
  | newline
  | semicolon
  | ampersand

/-- A list: AND-OR lists that are followed by `;`, or by `&` where `background`
says so, and a last one. -/
structure CommandList where
  front : List (AndOr × Bool)
  last : AndOr
  finish : End

def opCommand (op : CStr) : Command := ⟨none, false, none, 0, op, -1⟩

def AndOr.commands : AndOr → List Command
  | .single p => p.commands
  | .andThen l p => l.commands ++ opCommand "&&".toList :: p.commands
  | .orElse l p => l.commands ++ opCommand "||".toList :: p.commands

def separator (background : Bool) : CStr := if background then "&".toList else ";".toList

def End.ops : End → List CStr
  | .newline => ["\\n".toList]
  | .semicolon => [";".toList, "\\n".toList]
  | .ampersand => ["&".toList, "\\n".toList]

/-- Whether the last pipeline is not waited for. -/
def End.background : End → Bool
  | .ampersand => true
  | _ => false

/-- The commands of AND-OR lists that are followed by others. -/
def frontCommands (front : List (AndOr × Bool)) : List Command :=
  front.flatMap fun t => t.1.commands ++ [opCommand (separator t.2)]

def CommandList.commands (l : CommandList) : List Command :=
  frontCommands l.front ++ (l.last.commands ++ l.finish.ops.map opCommand)

/-- The states that a list leads through, and what it executes. -/
structure Exec (σ : Type) where
  sh : Session σ
  ran : List (Ran σ)

/-- The next pipeline, if it is executed. The temporary variables of the
pipeline in front of it end in any case. -/
def Exec.next (sys : System σ) (e : Exec σ) (decide : Session σ → Bool) (p : Pipeline)
    (noWait : Bool) : Exec σ :=
  let sh := e.sh.undo
  if decide sh then
    let r := runPipeline sys p.commands noWait sh
    ⟨r.after, e.ran ++ [r]⟩
  else ⟨sh, e.ran⟩

/-- The left-associative reading of an AND-OR list, behind what `e` has
executed; `noWait` is about its last pipeline. -/
def AndOr.exec (sys : System σ) (e : Exec σ) : (noWait : Bool) → AndOr → Exec σ
  | noWait, .single p => e.next sys (fun _ => true) p noWait
  | noWait, .andThen l p => (l.exec sys e false).next sys (fun sh => sh.dshExitCode = 0) p noWait
  | noWait, .orElse l p => (l.exec sys e false).next sys (fun sh => sh.dshExitCode ≠ 0) p noWait

/-- The AND-OR lists are executed one after the other. -/
def CommandList.exec (sys : System σ) (l : CommandList) (sh : Session σ) : Exec σ :=
  l.last.exec sys (l.front.foldl (fun e t => t.1.exec sys e t.2) ⟨sh, []⟩) l.finish.background

/-- The shell does not go on behind this pipeline. -/
def Ran.stops (r : Ran σ) : Bool :=
  r.failed || r.after.dshExitCode = interrupted || !r.after.dshOperateState

/-- The elements up to the first one with the property. -/
def upTo {α : Type} (stop : α → Bool) : List α → List α
  | [] => []
  | a :: l => if stop a then [a] else a :: upTo stop l

section UpTo

variable {α : Type} {stop : α → Bool}

theorem upTo_append (l m : List α) :
    upTo stop (l ++ m) = if l.any stop then upTo stop l else l ++ upTo stop m := by
  induction l with
  | nil => rfl
  | cons a l ih =>
    rw [cons_append, upTo, upTo, any_cons, ih]
    cases stop a with
    | true => rfl
    | false =>
      simp only [Bool.false_or, Bool.false_eq_true, if_false]
      split <;> rfl

theorem upTo_eq_self {l : List α} (h : l.any stop = false) : upTo stop l = l := by
  have := @upTo_append _ stop l []
  simpa [h, upTo] using this

end UpTo

variable {sys : System σ} {sh : Session σ} {cur rest : List Command} {prevOp : CStr}

variable {commands : List Command} {e : Exec σ} {noWait : Bool}

theorem listLoop_collect (hop : sh.dshOperateState = true)
    (hin : ∀ c ∈ commands, isListOp c.op = false) :
    listLoop sys (commands ++ rest) cur prevOp sh = listLoop sys rest (cur ++ commands) prevOp sh := by
  induction commands generalizing cur with
  | nil => simp
  | cons c commands ih =>
    rw [cons_append, listLoop, if_neg (by rw [hop]; exact Bool.noConfusion),
      if_pos (hin c mem_cons_self), ih fun c hc => hin c (.tail _ hc),
      append_assoc]
    rfl

theorem listLoop_ended (hop : sh.dshOperateState = false) :
    listLoop sys rest cur prevOp sh = ⟨0, sh, []⟩ := by
  cases rest with
  | nil => rfl
  | cons c rest => rw [listLoop, if_pos hop]

/-- Whether a pipeline is executed behind an operator. -/
def decides (prevOp : CStr) (sh : Session σ) : Bool :=
  !(prevOp = "&&".toList && sh.dshExitCode ≠ 0) && !(prevOp = "||".toList && sh.dshExitCode = 0)

/-- The shell has executed what `e` has, and goes on with `next` unless
something has stopped it. -/
structure Cut (t : Listed σ) (e : Exec σ) (next : Session σ → Listed σ) : Prop where
  go : e.ran.any Ran.stops = false →
    e.sh.dshOperateState = true ∧ t.sh = (next e.sh).sh ∧ t.ran = e.ran ++ (next e.sh).ran
  stop : e.ran.any Ran.stops = true →
    t.ran = upTo Ran.stops e.ran ∧ ∃ r, t.ran.getLast? = some r ∧ t.sh = r.after

theorem Cut.comp {t : Listed σ} {e' : Exec σ} {next next' : Session σ → Listed σ}
    (h : Cut t e next)
    (h' : e.ran.any Ran.stops = false → e.sh.dshOperateState = true → Cut (next e.sh) e' next') :
    Cut t ⟨e'.sh, e.ran ++ e'.ran⟩ next' := by
  constructor
  · intro hany
    rw [any_append, Bool.or_eq_false_iff] at hany
    obtain ⟨hop, hsh, hran⟩ := h.go hany.1
    obtain ⟨hop', hsh', hran'⟩ := (h' hany.1 hop).go hany.2
    exact ⟨hop', hsh.trans hsh', by simp [hran, hran']⟩
  intro hany
  rw [upTo_append]
  by_cases hfirst : e.ran.any Ran.stops = true
  · rw [if_pos hfirst]
    exact h.stop hfirst
  rw [if_neg hfirst]
  have hfalse := eq_false_of_ne_true hfirst
  rw [any_append, hfalse, Bool.false_or] at hany
  obtain ⟨hop, hsh, hran⟩ := h.go hfalse
  obtain ⟨hran', r, hlast, hr⟩ := (h' hfalse hop).stop hany
  refine ⟨by rw [hran, hran'], r, ?_, hsh.trans hr⟩
  rw [hran, getLast?_append, hlast]
  rfl

/-- Behind a pipeline that was executed the loop goes on or is stopped. -/
theorem cut_ran (r : Ran σ) (op : CStr) :
    Cut (if r.failed then ⟨-1, r.after, [r]⟩
      else if r.after.dshExitCode = interrupted then ⟨0, r.after, [r]⟩
      else ⟨(listLoop sys rest [] op r.after).result, (listLoop sys rest [] op r.after).sh,
        r :: (listLoop sys rest [] op r.after).ran⟩)
      ⟨r.after, [r]⟩ (listLoop sys rest [] op) := by
  by_cases hstop : r.stops = true
  · refine ⟨fun h => ?_, fun _ => ?_⟩
    · rw [any_cons, hstop, Bool.true_or] at h
      cases h
    rw [upTo, if_pos hstop]
    split
    · simp
    next hfailed =>
      split
      · exact ⟨rfl, r, rfl, rfl⟩
      next hint =>
        have hended : r.after.dshOperateState = false := by
          simp only [Ran.stops, Bool.or_eq_true, decide_eq_true_eq, Bool.not_eq_true'] at hstop
          exact hstop.resolve_left fun h => h.elim hfailed hint
        rw [listLoop_ended hended]
        simp
  · simp only [Ran.stops, Bool.or_eq_true, decide_eq_true_eq, Bool.not_eq_true', not_or,
      Bool.not_eq_false] at hstop
    rw [if_neg hstop.1.1, if_neg hstop.1.2]
    refine ⟨fun _ => ⟨hstop.2, rfl, rfl⟩, fun h => ?_⟩
    simp [Ran.stops, hstop] at h

theorem listLoop_pipeline (p : Pipeline) {op : CStr} (hlist : isListOp op = true)
    (hop : sh.dshOperateState = true) :
    Cut (listLoop sys (p.commands ++ opCommand op :: rest) [] prevOp sh)
      (Exec.next sys ⟨sh, []⟩ (decides prevOp) p (op = "&".toList))
      (listLoop sys rest [] op) := by
  rw [listLoop_collect hop p.inside, nil_append, listLoop,
    if_neg (by rw [hop]; simp),
    if_neg (by rw [opCommand, hlist]; exact Bool.noConfusion)]
  simp only [if_neg p.nonempty, Exec.next]
  have hskip : decides prevOp sh.undo = false →
      (Cut (listLoop sys rest [] op sh.undo) ⟨sh.undo, []⟩ (listLoop sys rest [] op)) :=
    fun _ => ⟨fun _ => ⟨hop, rfl, rfl⟩, fun h => (by cases h)⟩
  by_cases hand : prevOp = "&&".toList ∧ sh.undo.dshExitCode ≠ 0
  · have hdec : decides prevOp sh.undo = false := by simp [decides, hand.1, hand.2]
    rw [if_pos hand, if_neg (by rw [hdec]; simp)]
    exact hskip hdec
  by_cases hor : prevOp = "||".toList ∧ sh.undo.dshExitCode = 0
  · have hdec : decides prevOp sh.undo = false := by simp [decides, hor.1, hor.2]
    rw [if_neg hand, if_pos hor, if_neg (by rw [hdec]; simp)]
    exact hskip hdec
  have hdec : decides prevOp sh.undo = true := by
    simp only [decides, Bool.and_eq_true, Bool.not_eq_true', Bool.and_eq_false_iff,
      decide_eq_false_iff_not]
    exact ⟨not_and_or.mp hand, not_and_or.mp hor⟩
  rw [if_neg hand, if_neg hor, if_pos hdec, nil_append]
  exact cut_ran _ op

/-! ## Whole lists -/

/-- The shell ends with the exit code of the pipeline that was executed last. -/
def Ends (sh : Session σ) (ran : List (Ran σ)) : Prop :=
  ∃ r, ran.getLast? = some r ∧ sh.dshExitCode = r.after.dshExitCode

theorem Exec.next_append (e : Exec σ) (decide : Session σ → Bool) (p : Pipeline) (noWait : Bool) :
    e.next sys decide p noWait = ⟨(Exec.next sys ⟨e.sh, []⟩ decide p noWait).sh,
      e.ran ++ (Exec.next sys ⟨e.sh, []⟩ decide p noWait).ran⟩ := by
  simp only [Exec.next]
  split
  · rfl
  · rw [append_nil]

theorem Exec.next_ends {decide : Session σ → Bool} {p : Pipeline}
    (h : Ends e.sh e.ran ∨ decide e.sh.undo = true) :
    Ends (e.next sys decide p noWait).sh (e.next sys decide p noWait).ran := by
  simp only [Exec.next]
  by_cases hdec : decide e.sh.undo = true
  · rw [if_pos hdec]
    exact ⟨_, getLast?_concat, rfl⟩
  · rw [if_neg hdec]
    exact h.resolve_right hdec

variable (l : AndOr) (background : Bool)

theorem AndOr.exec_append (e : Exec σ) (noWait : Bool) :
    l.exec sys e noWait =
      ⟨(l.exec sys ⟨e.sh, []⟩ noWait).sh, e.ran ++ (l.exec sys ⟨e.sh, []⟩ noWait).ran⟩ := by
  induction l generalizing noWait with
  | single p => rfl
  | andThen l p ih | orElse l p ih =>
    rw [AndOr.exec, AndOr.exec, Exec.next_append, ih, Exec.next_append (l.exec sys ⟨e.sh, []⟩ false),
      append_assoc]

theorem AndOr.exec_ends (e : Exec σ) (noWait : Bool) :
    Ends (l.exec sys e noWait).sh (l.exec sys e noWait).ran := by
  induction l generalizing noWait with
  | single p => exact Exec.next_ends (.inr rfl)
  | andThen l p ih | orElse l p ih => exact Exec.next_ends (.inl (ih false))

theorem listLoop_andOr {op : CStr} (hlist : isListOp op = true)
    (hprev : ∀ sh : Session σ, decides prevOp sh = true) (hop : sh.dshOperateState = true) :
    Cut (listLoop sys (l.commands ++ opCommand op :: rest) [] prevOp sh)
      (l.exec sys ⟨sh, []⟩ (op = "&".toList)) (listLoop sys rest [] op) := by
  -- a pipeline behind a list that ends with the operator `op'`
  have hbehind : ∀ {l : AndOr} {p : Pipeline} {op' : CStr} {decide : Session σ → Bool} {noWait : Bool}
      {rest : List Command} {op : CStr}, isListOp op = true → decides op' = decide →
      Cut (listLoop sys (l.commands ++ opCommand op' :: (p.commands ++ opCommand op :: rest)) [] prevOp sh)
        (l.exec sys ⟨sh, []⟩ noWait) (listLoop sys (p.commands ++ opCommand op :: rest) [] op') →
      Cut (listLoop sys (l.commands ++ opCommand op' :: (p.commands ++ opCommand op :: rest)) [] prevOp sh)
        ((l.exec sys ⟨sh, []⟩ noWait).next sys decide p (op = "&".toList)) (listLoop sys rest [] op) := by
    intro l p op' decide noWait rest op hlist hdec h
    rw [Exec.next_append, ← hdec]
    exact h.comp fun _ hop' => listLoop_pipeline p hlist hop'
  induction l generalizing op rest with
  | single p =>
    have hdec : (fun _ => true) = decides prevOp := funext fun sh => (hprev sh).symm
    rw [AndOr.commands, AndOr.exec, hdec]
    exact listLoop_pipeline p hlist hop
  | andThen l p ih | orElse l p ih =>
    rw [AndOr.commands, AndOr.exec, append_assoc, cons_append]
    refine hbehind hlist ?_ (ih rfl)
    funext sh
    simp [decides]

theorem isListOp_separator : isListOp (separator background) = true := by
  cases background <;> decide

theorem decides_separator (sh : Session σ) : decides (separator background) sh = true := by
  cases background <;> simp [decides, separator]

theorem separator_background : decide (separator background = "&".toList) = background := by
  cases background <;> decide

theorem listLoop_front (hprev : ∀ sh : Session σ, decides prevOp sh = true)
    (hop : sh.dshOperateState = true) (front : List (AndOr × Bool)) :
    ∃ op, (∀ sh : Session σ, decides op sh = true) ∧
      Cut (listLoop sys (frontCommands front ++ rest) [] prevOp sh)
        (front.foldl (fun e t => t.1.exec sys e t.2) ⟨sh, []⟩) (listLoop sys rest [] op) := by
  -- from the last one on, so that what is in front of it has been executed
  induction front using reverseRecOn generalizing rest with
  | nil => exact ⟨prevOp, hprev, fun _ => ⟨hop, rfl, rfl⟩, fun h => (by cases h)⟩
  | append_singleton front t ih =>
    obtain ⟨op, hdec, hcut⟩ := @ih (t.1.commands ++ opCommand (separator t.2) :: rest)
    refine ⟨separator t.2, decides_separator t.2, ?_⟩
    rw [foldl_append, foldl_cons, foldl_nil, AndOr.exec_append]
    rw [frontCommands, flatMap_append, append_assoc, flatMap_singleton,
      append_assoc, singleton_append]
    refine hcut.comp fun _ hop' => ?_
    have := (@listLoop_andOr _ sys _ rest _) t.1 (isListOp_separator t.2) hdec hop'
    rwa [separator_background] at this

theorem End.ops_eq (finish : End) : ∃ op rest, finish.ops.map opCommand = opCommand op :: rest ∧
    isListOp op = true ∧ decide (op = "&".toList) = finish.background ∧
    ∀ sh : Session σ, sh.dshOperateState = true → (listLoop sys rest [] op sh).ran = [] ∧
      (listLoop sys rest [] op sh).sh.dshExitCode = sh.dshExitCode := by
  have hbare : ∀ op : CStr, op = "&".toList ∨ op = ";".toList → ∀ sh : Session σ,
      sh.dshOperateState = true →
      listLoop sys [opCommand "\\n".toList] [] op sh = ⟨0, sh.undo, []⟩ := by
    intro op hor sh hop
    rw [listLoop, if_neg (by rw [hop]; simp), if_neg (by decide)]
    exact (if_pos rfl).trans (if_pos ⟨hor, rfl⟩)
  cases finish with
  | newline => exact ⟨_, [], rfl, rfl, rfl, fun _ _ => ⟨rfl, rfl⟩⟩
  | semicolon =>
    refine ⟨_, [_], rfl, rfl, rfl, fun sh hop => ?_⟩
    rw [hbare _ (.inr rfl) sh hop]
    exact ⟨rfl, rfl⟩
  | ampersand =>
    refine ⟨_, [_], rfl, rfl, rfl, fun sh hop => ?_⟩
    rw [hbare _ (.inl rfl) sh hop]
    exact ⟨rfl, rfl⟩

/-! ## Failures -/

theorem parsePipelinePart_failed {pipeFdIn pipeFdOut pgroup : Int}
    (h : (parsePipelinePart sys commands pipeFdIn pipeFdOut noWait pgroup sh).1 = none) :
    (parsePipelinePart sys commands pipeFdIn pipeFdOut noWait pgroup sh).2.dshExitCode = 1 := by
  unfold parsePipelinePart at h ⊢
  split at h
  · rfl
  · split at h
    · rfl
    · cases h
    · cases h

theorem partsLoop_failed {parts : List (List Command × (Int × Int))} {pgroup : Int}
    (h : (partsLoop sys noWait parts pgroup sh).1 = false) :
    (partsLoop sys noWait parts pgroup sh).2.dshExitCode = 1 := by
  induction parts generalizing pgroup sh with
  | nil => cases h
  | cons part parts ih =>
    rw [partsLoop] at h ⊢
    generalize hpart : parsePipelinePart sys part.1 part.2.1
      ((parts.head?.map fun part => part.2.2).getD (-1)) noWait pgroup sh = r at h ⊢
    rcases r with ⟨_ | pid, sh'⟩
    · have hfailed := parsePipelinePart_failed (congrArg Prod.fst hpart)
      rw [hpart] at hfailed
      exact hfailed
    simp only at h ⊢
    by_cases hended : sh'.dshOperateState = false
    · rw [if_pos hended] at h
      cases h
    · rw [if_neg hended] at h ⊢
      exact ih h

theorem runPipeline_failed (h : (runPipeline sys commands noWait sh).failed = true) :
    (runPipeline sys commands noWait sh).after.dshExitCode = 1 := by
  simp only [runPipeline, Bool.not_eq_true'] at h ⊢
  rw [h, Bool.false_and, if_neg Bool.noConfusion]
  simp only [parsePipeline] at h ⊢
  by_cases hpipes : (pipeLoop sys commands [] (-1, -1) 1 sh).1 = true
  · rw [if_pos hpipes] at h ⊢
    exact partsLoop_failed h
  · rw [if_neg hpipes]
    rfl

/-- All pipelines of the reading that fail have it. -/
def FailsWithOne (ran : List (Ran σ)) : Prop :=
  ∀ r ∈ ran, r.failed = true → r.after.dshExitCode = 1

theorem Exec.next_fails (h : FailsWithOne e.ran) (decide : Session σ → Bool) (p : Pipeline)
    (noWait : Bool) : FailsWithOne (e.next sys decide p noWait).ran := by
  simp only [Exec.next]
  split
  · intro r hr hfailed
    rcases mem_append.mp hr with hr | hr
    · exact h r hr hfailed
    · obtain rfl := mem_singleton.mp hr
      exact runPipeline_failed hfailed
  · exact h

theorem AndOr.exec_fails (h : FailsWithOne e.ran) (noWait : Bool) :
    FailsWithOne (l.exec sys e noWait).ran := by
  induction l generalizing noWait with
  | single p => exact Exec.next_fails h _ p noWait
  | andThen l p ih | orElse l p ih => exact Exec.next_fails (ih false) _ p noWait

theorem CommandList.exec_fails (l : CommandList) : FailsWithOne (l.exec sys sh).ran := by
  refine l.last.exec_fails ?_ _
  induction l.front using reverseRecOn with
  | nil => exact fun r hr => absurd hr not_mem_nil
  | append_singleton front t ih =>
    rw [foldl_append, foldl_cons, foldl_nil]
    exact t.1.exec_fails ih t.2

theorem mem_of_mem_upTo {α : Type} {stop : α → Bool} {l : List α} {a : α} (h : a ∈ upTo stop l) :
    a ∈ l := by
  induction l with
  | nil => exact h
  | cons b l ih =>
    rw [upTo] at h
    split at h
    · exact mem_singleton.mp h ▸ mem_cons_self
    · rcases mem_cons.mp h with rfl | h
      · simp
      · exact .tail _ (ih h)

/-- The shell executes the pipelines that the left-associative reading
executes, up to the first one that stops it, and ends with the exit code of
the last of them. Those that cannot be set up have the exit code 1. -/
theorem parseList_reads (sys : System σ) (l : CommandList) (sh : Session σ)
    (hop : sh.dshOperateState = true) :
    (parseList sys l.commands sh).ran = upTo Ran.stops (l.exec sys sh).ran ∧
      Ends (parseList sys l.commands sh).sh (parseList sys l.commands sh).ran ∧
      FailsWithOne (parseList sys l.commands sh).ran := by
  obtain ⟨op, rest, hops, hlist, hbackground, hend⟩ := @End.ops_eq _ sys l.finish
  obtain ⟨prevOp, hdec, hfront⟩ := @listLoop_front _ sys sh
    (l.last.commands ++ opCommand op :: rest) [] (fun _ => by simp [decides]) hop l.front
  have hcut := hfront.comp fun _ hop' =>
    (@listLoop_andOr _ sys _ rest _) l.last hlist hdec hop'
  rw [hbackground, ← AndOr.exec_append, ← hops] at hcut
  have hends := @AndOr.exec_ends _ sys l.last
    (l.front.foldl (fun e t => t.1.exec sys e t.2) ⟨sh, []⟩) l.finish.background
  have hran : (parseList sys l.commands sh).ran = upTo Ran.stops (l.exec sys sh).ran ∧
      Ends (parseList sys l.commands sh).sh (parseList sys l.commands sh).ran := by
    rw [parseList, CommandList.exec]
    by_cases hstop : (l.exec sys sh).ran.any Ran.stops = true
    · obtain ⟨hran, r, hlast, hr⟩ := hcut.stop hstop
      exact ⟨hran, r, hlast, congrArg Session.dshExitCode hr⟩
    obtain ⟨hop', hsh, hran⟩ := hcut.go (eq_false_of_ne_true hstop)
    obtain ⟨hnone, hcode⟩ := hend _ hop'
    rw [hnone, append_nil] at hran
    obtain ⟨r, hlast, hr⟩ := hends
    refine ⟨hran.trans (upTo_eq_self (eq_false_of_ne_true hstop)).symm, r, ?_, ?_⟩
    · exact (congrArg getLast? hran).trans hlast
    · exact (congrArg Session.dshExitCode hsh).trans (hcode.trans hr)
  refine ⟨hran.1, hran.2, fun r hr => ?_⟩
  rw [hran.1] at hr
  exact l.exec_fails r (mem_of_mem_upTo hr)

def wordCommand (word : String) : Command := ⟨some [word.toList], false, none, 0, [], 0⟩

/-- A system without files, in which each command exits with zero. -/
def noFiles : System Unit where
  openFile _ _ w := (none, w)
  getfl _ _ := none
  pipe w := (none, w)
  setCloexec _ w := (true, w)
  execute _ sh := (sh.exit 0, 1)

def freshSession : Session Unit := ⟨⟨fun _ => DshVar.empty, 1⟩, fun _ => true, true, true, 0, ()⟩

def catFile : Pipeline where
  commands := [wordCommand "cat", opCommand "<".toList, wordCommand "file"]
  nonempty := cons_ne_nil _ _
  inside := by decide

def echo : Pipeline where
  commands := [wordCommand "echo"]
  nonempty := cons_ne_nil _ _
  inside := by decide

theorem parseList_reads_or :
    ((parseList noFiles (CommandList.mk [] (.orElse (.single echo) catFile) .newline).commands
        freshSession).ran.map Ran.pipeline = [echo.commands]) ∧
      Ends (parseList noFiles (CommandList.mk [] (.orElse (.single echo) catFile) .newline).commands
        freshSession).sh (parseList noFiles (CommandList.mk [] (.orElse (.single echo) catFile)
          .newline).commands freshSession).ran := by
  obtain ⟨hran, hends, -⟩ := parseList_reads noFiles
    (CommandList.mk [] (.orElse (.single echo) catFile) .newline) freshSession rfl
  refine ⟨?_, hends⟩
  rw [hran]
  decide

/-- Nothing is executed behind a pipeline whose redirection fails, although it
has the exit code 1. -/
theorem or_not_executed :
    (parseList noFiles (CommandList.mk [] (.orElse (.single catFile) echo) .newline).commands
        freshSession).ran.map Ran.pipeline = [catFile.commands] ∧
      (CommandList.exec noFiles (CommandList.mk [] (.orElse (.single catFile) echo) .newline)
        freshSession).ran.map Ran.pipeline = [catFile.commands, echo.commands] := by
  decide

end Dancy.Shell
