import Dancy.Files.Ops

/-!
# Spawning a task (`syscall/spawn.c`, `dancy_syscall_spawn`)

The parent waits for `ta.lock` until the new task has run `new_task` to its
end, so the two never use the copied options at the same time and
`spawn_task` is a function of the file table and of the heap. The wait for
a child that failed is not part of it.

An open action has a path: `vfs_open` reads the name without a check.
-/

namespace Dancy.Files

/-- The blocks that are allocated; `bad` is set when something else is freed. -/
structure SpawnHeap where
  next : Nat
  blocks : List Nat
  bad : Bool

namespace SpawnHeap

/-- The new block is `h.next`. -/
def malloc (h : SpawnHeap) : SpawnHeap :=
  { h with next := h.next + 1, blocks := h.next :: h.blocks }

def free (h : SpawnHeap) (p : Nat) : SpawnHeap :=
  { h with blocks := h.blocks.erase p, bad := h.bad || !h.blocks.contains p }

end SpawnHeap

/-- The `DE_*` codes of these functions. -/
inductive SpawnCode where
  | file (c : FileCode)
  | access
  | coffSignature
  | coffSize
  | other (code : Nat)
deriving DecidableEq

def SpawnCode.argument : SpawnCode := .file .argument
def SpawnCode.memory : SpawnCode := .file .memory

/-! ## The options -/

/-- A member of `_actions`, named by its `_type`; any of them can have a path. -/
inductive SpawnAction (π : Type) where
  | addClose (fd : Int) (path : Option π)
  | addDup2 (fd newFd : Int) (path : Option π)
  | addOpen (fd : Int) (flags : BitVec 32) (path : π)
  | addTcset (fd : Int) (path : Option π)
  | unknown (path : Option π)

def SpawnAction.path {π : Type} : SpawnAction π → Option π
  | .addClose _ p => p
  | .addDup2 _ _ p => p
  | .addOpen _ _ p => some p
  | .addTcset _ p => p
  | .unknown p => p

def SpawnAction.mapPath {π ρ : Type} (f : π → ρ) : SpawnAction π → SpawnAction ρ
  | .addClose fd p => .addClose fd (p.map f)
  | .addDup2 fd newFd p => .addDup2 fd newFd (p.map f)
  | .addOpen fd flags p => .addOpen fd flags (f p)
  | .addTcset fd p => .addTcset fd (p.map f)
  | .unknown p => .unknown (p.map f)

/-- A string of the caller, whether `pg_check_user_string` accepts it and
whether `strdup` finds memory for it. -/
structure UserPath where
  text : String
  (readable memory : Bool)

structure CopiedPath where
  block : Nat
  text : String

/-- `struct __dancy_spawn_file_actions` of the caller; the length of the
list is `_count`. -/
structure UserActions where
  (readable memory : Bool)
  actions : List (SpawnAction UserPath)

/-- `struct __dancy_spawn_options`; of the attributes, whether they can be
read, and `_flags`. -/
structure SpawnOptions where
  (aligned readable : Bool)
  actions : Option UserActions
  attrp : Option (Bool × BitVec 32)

/-- `struct task_arg`: the block and the members of `actions`, and the flags
of `attrp`. -/
structure TaskArg where
  argState : Nat
  actions : Option (Nat × List (SpawnAction CopiedPath))
  attrp : Option (BitVec 32)

def TaskArg.actionList (ta : TaskArg) : List (SpawnAction CopiedPath) :=
  match ta.actions with
  | none => []
  | some (_, actions) => actions

def spawnActionsMax : Nat := 128

def copyPath (h : SpawnHeap) (p : UserPath) : Except SpawnCode CopiedPath × SpawnHeap :=
  if !p.readable then (.error .argument, h)
  else if !p.memory then (.error .memory, h)
  else (.ok ⟨h.next, p.text⟩, h.malloc)

/-- `if (path) …` -/
def copyPathIf (h : SpawnHeap) : Option UserPath → Except SpawnCode (Option CopiedPath) × SpawnHeap
  | none => (.ok none, h)
  | some p => ((copyPath h p).1.map some, (copyPath h p).2)

/-- The body of the loop of `handle_options`. -/
def copyAction (h : SpawnHeap) :
    SpawnAction UserPath → Except SpawnCode (SpawnAction CopiedPath) × SpawnHeap
  | .addClose fd p => ((copyPathIf h p).1.map (.addClose fd), (copyPathIf h p).2)
  | .addDup2 fd newFd p => ((copyPathIf h p).1.map (.addDup2 fd newFd), (copyPathIf h p).2)
  | .addOpen fd flags p => ((copyPath h p).1.map (.addOpen fd flags), (copyPath h p).2)
  | .addTcset fd p => ((copyPathIf h p).1.map (.addTcset fd), (copyPathIf h p).2)
  | .unknown p => ((copyPathIf h p).1.map .unknown, (copyPathIf h p).2)

/-- The loop. The members behind one that fails stay zero and have no path. -/
def copyActions (h : SpawnHeap) :
    List (SpawnAction UserPath) → Option SpawnCode × List (SpawnAction CopiedPath) × SpawnHeap
  | [] => (none, [], h)
  | a :: as =>
    match copyAction h a with
    | (.error c, h) => (some c, [], h)
    | (.ok a, h) =>
      let r := copyActions h as
      (r.1, a :: r.2.1, r.2.2)

/-- The part of `handle_options` about `options->actions`. -/
def handleActions (h : SpawnHeap) (ta : TaskArg) (a : UserActions) :
    Option SpawnCode × TaskArg × SpawnHeap :=
  if !a.readable then (some .argument, ta, h)
  else if !a.memory then (some .memory, ta, h)
  else
    let block := h.next
    let h := h.malloc
    if a.actions.length ≥ spawnActionsMax then
      (some .argument, { ta with actions := some (block, []) }, h)
    else
      let r := copyActions h a.actions
      (r.1, { ta with actions := some (block, r.2.1) }, r.2.2)

/-- The part about `options->attrp`. -/
def handleAttributes (ta : TaskArg) : Option (Bool × BitVec 32) → Option SpawnCode × TaskArg
  | none => (none, ta)
  | some (readable, flags) =>
    if !readable then (some .argument, ta) else (none, { ta with attrp := some flags })

def handleOptions (h : SpawnHeap) (ta : TaskArg) (o : SpawnOptions) :
    Option SpawnCode × TaskArg × SpawnHeap :=
  if !o.aligned then (some .argument, ta, h)
  else if !o.readable then (some .argument, ta, h)
  else
    let r := match o.actions with
      | none => (none, ta, h)
      | some a => handleActions h ta a
    match r with
    | (some c, ta, h) => (some c, ta, h)
    | (none, ta, h) => ((handleAttributes ta o.attrp).1, (handleAttributes ta o.attrp).2, h)

/-- The body of the loop of `release_actions`. -/
def releasePath (h : SpawnHeap) (a : SpawnAction CopiedPath) : SpawnHeap :=
  match a.path with
  | none => h
  | some p => h.free p.block

def releaseActions (h : SpawnHeap) (ta : TaskArg) : TaskArg × SpawnHeap :=
  match ta.actions with
  | none => (ta, h)
  | some (block, actions) => ({ ta with actions := none }, (actions.foldl releasePath h).free block)

/-! ## The new task -/

def spawnSetpgroup : BitVec 32 := 0x0002
def spawnSetsigdef : BitVec 32 := 0x0004
def spawnSetsigmask : BitVec 32 := 0x0008
def spawnUsevfork : BitVec 32 := 0x0040
def spawnSetsid : BitVec 32 := 0x0080

/-- What the rest of the kernel answers the new task. `setpgroup` is
`setpgroup_retval`, `vfsOpen k` and `ioctl k` are for action `k`, `ldDancy`
is the second `coff_load_executable`, if `/bin/ld-dancy` can be opened. -/
structure SpawnReplies where
  setpgroup : Option SpawnCode
  vfsOpen : Nat → VfsOpen
  ioctl : Nat → Option SpawnCode
  (pgCreate coffLoad : Option SpawnCode)
  ldDancy : Option (Option SpawnCode)
  (argCopy argSetCmdline : Option SpawnCode)

/-- `if ((flags & f) != 0) flags ^= f;` -/
def takeFlag (f flags : BitVec 32) : BitVec 32 := if flags &&& f ≠ 0 then flags ^^^ f else flags

/-- The part of `new_task` about `ta->attrp`. -/
def newTaskAttributes (r : SpawnReplies) : Option (BitVec 32) → Option SpawnCode
  | none => none
  | some flags =>
    let flags := takeFlag spawnSetsid (takeFlag spawnUsevfork flags)
    let failed := if flags &&& spawnSetpgroup ≠ 0 then r.setpgroup else none
    match failed with
    | some c => some c
    | none =>
      let flags := takeFlag spawnSetsigmask (takeFlag spawnSetsigdef
        (takeFlag spawnSetpgroup flags))
      if flags ≠ 0 then some .argument else none

/-- `file_dup(fd, &fd2, newFd, newFd, 0)` and the test behind it. -/
def spawnDup (s : FileState) (task : Nat) (fd newFd : Int) : Option SpawnCode × FileState :=
  match fileDup s task fd newFd newFd 0 with
  | (.ok d, s) => (if newFd ≠ d then some .argument else none, s)
  | (.error c, s) => (if newFd ≠ -1 then some .argument else some (.file c), s)

def runAction (vfsOpen : VfsOpen) (ioctl : Option SpawnCode) (s : FileState) (task : Nat) :
    SpawnAction CopiedPath → Option SpawnCode × FileState
  | .addClose fd _ => (none, (fileClose s task fd).2)
  | .addDup2 fd newFd _ =>
    if fd = newFd then
      match fileFcntl s task fd .getfd 0 with
      | (.ok _, s) => (none, s)
      | (.error c, s) => (some (.file c), s)
    else spawnDup s task fd newFd
  | .addOpen fd flags p =>
    match fileOpen vfsOpen s task p.text flags with
    | (.error c, s) => (some (.file c), s)
    | (.ok d, s) =>
      if (d : Int) = fd then (none, s)
      else
        let r := spawnDup s task d fd
        (r.1, (fileClose r.2 task d).2)
  | .addTcset _ _ => (ioctl, s)
  | .unknown _ => (some .argument, s)

/-- The loop from action `k` on. -/
def runActions (r : SpawnReplies) (task : Nat) :
    Nat → FileState → List (SpawnAction CopiedPath) → Option SpawnCode × FileState
  | _, s, [] => (none, s)
  | k, s, a :: as =>
    match runAction (r.vfsOpen k) (r.ioctl k) s task a with
    | (some c, s) => (some c, s)
    | (none, s) => runActions r task (k + 1) s as

def loadExecutable (r : SpawnReplies) : Option SpawnCode :=
  if r.coffLoad = some .coffSignature ∨ r.coffLoad = some .coffSize then
    match r.ldDancy with
    | some c => c
    | none => r.coffLoad
  else r.coffLoad

/-- `pg_create` and what follows it, up to `arg_set_cmdline`: the first that
fails. -/
def prepareProgram (r : SpawnReplies) : Option SpawnCode :=
  r.pgCreate <|> loadExecutable r <|> r.argCopy <|> r.argSetCmdline

/-- The body of the loop that closes the close-on-exec descriptors. -/
def closeCloexecSlot (task : Nat) (s : FileState) (i : Nat) : FileState :=
  match (s.fd task).table i with
  | some v => if v.cloexec then (fileClose s task i).2 else s
  | none => s

def closeCloexec (s : FileState) (task : Nat) : FileState :=
  (List.range (s.fd task).state).foldl (closeCloexecSlot task) s

/-- `new_task`: `ta->retval` when it unlocks `ta->lock`. -/
def newTask (r : SpawnReplies) (ta : TaskArg) (task : Nat) (s : FileState) (h : SpawnHeap) :
    Option SpawnCode × FileState × SpawnHeap :=
  match newTaskAttributes r ta.attrp with
  | some c => (some c, s, h)
  | none =>
    match runActions r task 0 s ta.actionList with
    | (some c, s) => (some c, s, h)
    | (none, s) =>
      match prepareProgram r with
      | some c => (some c, s, h)
      | none => (none, closeCloexec s task, h.free ta.argState)

/-! ## The parent -/

/-- A call of `spawn_task`; `memory` is whether `task_create` finds a
structure for the new task. -/
structure SpawnInput where
  (parent child argState : Nat)
  options : Option SpawnOptions
  memory : Bool
  replies : SpawnReplies

/-- Where `spawn_task` stands when it has released the actions. -/
structure Spawned where
  retval : Option SpawnCode
  created : Bool
  files : FileState
  heap : SpawnHeap

/-- `if (options && (r = handle_options(&ta, options)) != 0)` -/
def spawnTaskArg (i : SpawnInput) (h : SpawnHeap) : Option SpawnCode × TaskArg × SpawnHeap :=
  match i.options with
  | none => (none, ⟨i.argState, none, none⟩, h)
  | some o => handleOptions h ⟨i.argState, none, none⟩ o

/-- `spawn_task` up to the wait. A child that failed has gone through
`task_exit` when it can be waited for. -/
def spawnTask (i : SpawnInput) (s : FileState) (h : SpawnHeap) : Spawned :=
  match spawnTaskArg i h with
  | (some c, ta, h) => ⟨some c, false, s, (releaseActions h ta).2⟩
  | (none, ta, h) =>
    if !i.memory then ⟨some .memory, false, s, (releaseActions h ta).2⟩
    else
      match newTask i.replies ta i.child (taskCreate s i.parent i.child) h with
      | (none, s, h) => ⟨none, true, s, (releaseActions h ta).2⟩
      | (some c, s, h) => ⟨some c, true, taskExit s i.child, (releaseActions h ta).2⟩

inductive SpawnErrno where
  | efault
  | enoent
  | einval
  | eisdir
  | enoexec
  | enomem
  | eperm

/-- What `vfs_open` makes of the program's path. -/
inductive ProgramNode where
  | regular
  | directory
  | otherType
  | missing
  | failed

structure SpawnSyscall where
  pathReadable : Bool
  node : ProgramNode
  argCreate : Option SpawnCode
  input : SpawnInput

/-- `dancy_syscall_spawn`: the answer, the file table and the heap. The
argument block of a spawn that fails is deleted here. -/
def dancySyscallSpawn (c : SpawnSyscall) (s : FileState) (h : SpawnHeap) :
    Except SpawnErrno Nat × FileState × SpawnHeap :=
  if !c.pathReadable then (.error .efault, s, h)
  else
    match c.node with
    | .missing => (.error .enoent, s, h)
    | .failed => (.error .einval, s, h)
    | .directory => (.error .eisdir, s, h)
    | .otherType => (.error .enoexec, s, h)
    | .regular =>
      match c.argCreate with
      | some e => (.error (if e = .memory then .enomem else .efault), s, h)
      | none =>
        let block := h.next
        let r := spawnTask { c.input with argState := block } s h.malloc
        match r.retval with
        | none => (.ok c.input.child, r.files, r.heap)
        | some e =>
          (.error (if e = .memory then .enomem
            else if e = .argument then .einval
            else if e = .access then .eperm
            else .enoexec), r.files, r.heap.free block)

/-! ## What the actions ask for -/

/-- A file of the parent, or the one that an action opened. -/
inductive SpawnFile where
  | inherited (entry : Nat)
  | opened (action : Nat)
deriving DecidableEq

structure SpawnDescriptor where
  file : SpawnFile
  cloexec : Bool

abbrev SpawnTable := Nat → Option SpawnDescriptor

namespace SpawnTable

def ofParent (table : Nat → Option Slot) : SpawnTable :=
  fun d => (table d).map fun v => ⟨.inherited v.fte, v.cloexec⟩

def get (tab : SpawnTable) (fd : Int) : Option SpawnDescriptor :=
  if 0 ≤ fd then tab fd.toNat else none

def set (tab : SpawnTable) (fd : Int) (x : Option SpawnDescriptor) : SpawnTable :=
  if 0 ≤ fd then Function.update tab fd.toNat x else tab

def IsLowest (tab : SpawnTable) (fd : Int) : Prop :=
  0 ≤ fd ∧ tab fd.toNat = none ∧ ∀ j < fd.toNat, tab j ≠ none

instance (tab : SpawnTable) (fd : Int) : Decidable (tab.IsLowest fd) :=
  inferInstanceAs (Decidable (_ ∧ _ ∧ _))

/-- What action `k` does. A file that is opened elsewhere is moved to its
descriptor by a duplication, which clears the close-on-exec flag. -/
def apply {π : Type} (k : Nat) (tab : SpawnTable) : SpawnAction π → SpawnTable
  | .addClose fd _ => tab.set fd none
  | .addDup2 fd newFd _ =>
    if fd = newFd then tab else tab.set newFd ((tab.get fd).map fun x => ⟨x.file, false⟩)
  | .addOpen fd flags _ =>
    tab.set fd (some ⟨.opened k, decide (flags &&& oCloexec ≠ 0 ∧ tab.IsLowest fd)⟩)
  | .addTcset _ _ => tab
  | .unknown _ => tab

def applyAll {π : Type} : Nat → SpawnTable → List (SpawnAction π) → SpawnTable
  | _, tab, [] => tab
  | k, tab, a :: as => applyAll (k + 1) (tab.apply k a) as

def dropCloexec (tab : SpawnTable) : SpawnTable := fun d => (tab d).filter fun x => !x.cloexec

theorem set_natCast (tab : SpawnTable) (d : Nat) (x : Option SpawnDescriptor) :
    tab.set d x = Function.update tab d x := by
  simp [set]

end SpawnTable

/-! ## Steps of one task -/

structure FileInfo where
  node : Option Node
  flags : BitVec 32
  offset : Nat

def FileTableEntry.info (e : FileTableEntry) : FileInfo := ⟨e.node, e.flags, e.offset⟩

/-- Task `t` changed its own table only, and no file that stays open. -/
structure Touches (s s' : FileState) (t : Nat) : Prop where
  inv : FileInv s' []
  live : s'.live = s.live
  others : ∀ t', t' ≠ t → (s'.fd t').table = (s.fd t').table
  kept : ∀ i, 0 < (s.fileTable i).count → 0 < (s'.fileTable i).count →
    (s'.fileTable i).info = (s.fileTable i).info

variable {s s' : FileState} {t d i : Nat} {v : Slot}

theorem Touches.of_same (h : FileInv s' []) (hs : SameTables s s') : Touches s s' t :=
  ⟨h, hs.live, fun t' _ => hs.tables t', fun i _ _ => by rw [hs.entries]⟩

theorem Keeps.touches {α : Type} {r : Except FileCode α × FileState} {new : α → Prop}
    {c : FileCode} (h : Keeps s r new) (hc : r.1 = .error c) : Touches s r.2 t :=
  .of_same h.inv (h.failed c hc)

theorem fileDecrementCount_info (hpos : 0 < ((fileDecrementCount s i).fileTable d).count) :
    ((fileDecrementCount s i).fileTable d).info = (s.fileTable d).info := by
  by_cases hdi : d = i
  · subst hdi
    unfold fileDecrementCount at hpos ⊢
    simp only at hpos ⊢
    split
    · rename_i h0
      rw [if_pos h0] at hpos
      split at hpos <;> simp [FileState.setEntry] at hpos
    · simp [FileState.setEntry, FileTableEntry.info]
  · unfold fileDecrementCount
    simp only
    split
    · split <;> simp [FileState.setEntry, hdi]
    · simp [FileState.setEntry, hdi]

section

variable (h : FileInv s []) (ht : t ∈ s.live)
include h ht

theorem fileClose_touches (fd : Int) : Touches s (fileClose s t fd).2 t := by
  refine ⟨h.close ht fd, fileClose_live s t fd, fun t' htt => ?_, fun i _ hpos => ?_⟩
  · unfold fileClose
    split
    · simp [FileState.setSlot, FileState.setFd, htt]
    · rfl
  unfold fileClose at hpos ⊢
  split
  · rename_i v hv
    rw [hv] at hpos
    exact fileDecrementCount_info hpos
  · rfl

theorem fileClose_table (fd : Int) :
    ((fileClose s t fd).2.fd t).table =
      if 0 ≤ fd then Function.update (s.fd t).table fd.toNat none else (s.fd t).table := by
  by_cases hfd : 0 ≤ fd
  · obtain ⟨d, rfl⟩ : ∃ d : Nat, fd = d := ⟨fd.toNat, by omega⟩
    rw [if_pos hfd, Int.toNat_natCast]
    funext e
    by_cases hed : e = d
    · rw [hed, Function.update_self]
      exact fileClose_free h ht d
    · rw [Function.update_of_ne hed]
      exact (fileClose_fd s t d).2.1 e (by simpa using hed)
  · rw [if_neg hfd]
    have hslot : s.slot t fd = none := by
      unfold FileState.slot
      rw [if_neg (by omega)]
    unfold fileClose
    rw [hslot]

theorem fileDupInto_touches (hv : (s.fd t).table d = some v) {newFd : Nat}
    (hnew : newFd < taskFdStaticCount) (hfree : (s.fd t).table newFd = none) (flags : BitVec 32) :
    Touches s (fileDupInto s t newFd v flags).2 t ∧
      ((fileDupInto s t newFd v flags).2.fd t).table =
        Function.update (s.fd t).table newFd (some ⟨v.fte, flags &&& oCloexec ≠ 0⟩) := by
  obtain ⟨-, hinv, hlive⟩ := fileDupInto_ok h ht hv newFd hnew hfree flags
  have hcount : (s.fileTable v.fte).count < intMax := by
    have hrefs := h.counts v.fte
    have hlt := h.refs_lt v.fte
    rw [List.count_nil] at hrefs
    omega
  have hlong : ∀ n, ((s.setFd t { s.fd t with state := n }).fd t).table = (s.fd t).table :=
    fun n => by simp [FileState.setFd]
  have hafter : ∃ n, (fileDupInto s t newFd v flags).2 =
      ((s.setFd t { s.fd t with state := n }).setSlot t newFd
        (some ⟨v.fte, flags &&& oCloexec ≠ 0⟩)).setEntry v.fte
        { s.fileTable v.fte with count := (s.fileTable v.fte).count + 1 } := by
    unfold fileDupInto
    simp only [hcount, if_true]
    rw [hlong, if_neg (fun hne => hne hfree)]
    exact ⟨_, rfl⟩
  obtain ⟨n, hn⟩ := hafter
  refine ⟨⟨hinv, hlive, fun t' htt => ?_, fun i _ _ => ?_⟩, ?_⟩
  · rw [hn]
    simp [FileState.setEntry, FileState.setSlot, FileState.setFd, htt]
  · rw [hn]
    by_cases hi : i = v.fte
    · subst hi
      simp [FileState.setEntry, FileTableEntry.info]
    · simp [FileState.setEntry, FileState.setSlot, FileState.setFd, hi]
  · rw [hn]
    show (((s.setFd t { s.fd t with state := n }).setSlot t newFd _).fd t).table = _
    rw [setSlot_table, hlong]

end

theorem fileDup_ok {fd newFd : Int} (hd : (fileDup s t fd newFd newFd 0).1 = .ok d) :
    fd ≠ newFd ∧ 0 ≤ newFd ∧ newFd < taskFdStaticCount ∧ ∃ v, s.slot t fd = some v ∧
      (fileDup s t fd newFd newFd 0).2 =
        (fileDupInto (fileClose s t newFd).2 t newFd.toNat v 0).2 := by
  unfold fileDup at hd ⊢
  split at hd
  · cases hd
  rename_i hrange
  split at hd
  · cases hd
  rename_i hdiff
  split at hd
  · cases hd
  rename_i v hv
  have h0 : (min newFd (taskFdStaticCount : Int) - newFd).toNat = 0 := by omega
  rw [if_neg hrange, if_neg hdiff]
  simp only [hv, h0, firstFree] at hd ⊢
  split at hd
  · rename_i hlt
    refine ⟨by omega, by omega, hlt.2, v, rfl, ?_⟩
    rw [if_pos hlt]
  · cases hd

/-- The entry and the descriptor of a file that was opened. -/
structure OpenedAt (s s' : FileState) (t i d : Nat) (cloexec : Bool) (info : FileInfo) : Prop where
  touches : Touches s s' t
  fresh : (s.fileTable i).count = 0
  info : (s'.fileTable i).info = info
  lowest : LowestFree (s.fd t).table 0 d
  table : (s'.fd t).table = Function.update (s.fd t).table d (some ⟨i, cloexec⟩)

theorem fileOpenDescriptor_opened {s0 : FileState} {n : Node} {flags : BitVec 32} {c : Bool}
    (h : FileInv s [i]) (ht : t ∈ s.live) (hfree : s0.fileTable i = freeEntry)
    (hentries : s.fileTable = Function.update s0.fileTable i ⟨true, 1, flags, 0, some n⟩)
    (hfd : s.fd = s0.fd) (hlive : s.live = s0.live)
    (hd : (fileOpenDescriptor s t i c).1 = .ok d)
    (hinv : FileInv (fileOpenDescriptor s t i c).2 []) :
    OpenedAt s0 (fileOpenDescriptor s t i c).2 t i d c ⟨some n, flags, 0⟩ := by
  unfold fileOpenDescriptor at hd hinv ⊢
  split at hd
  · cases hd
  rename_i d' s1 heq
  obtain rfl : d' = d := Except.ok.inj hd
  obtain ⟨hlow, -, hsame, -⟩ := allocFileDescriptor_some h ht (by rw [heq])
  rw [heq] at hsame
  simp only [heq] at hinv ⊢
  have hentries' : (s1.setSlot t d' (some ⟨i, c⟩)).fileTable =
      Function.update s0.fileTable i ⟨true, 1, flags, 0, some n⟩ :=
    (show s1.fileTable = s.fileTable from hsame.entries).trans hentries
  refine ⟨⟨hinv, (hsame.live).trans hlive, fun t' htt => ?_,
    fun j hj _ => ?_⟩, by rw [hfree]; rfl, ?_, hfd ▸ hlow, ?_⟩
  · rw [← hfd, ← hsame.tables]
    simp [FileState.setSlot, FileState.setFd, htt]
  · have hne : j ≠ i := by
      rintro rfl
      rw [hfree] at hj
      exact lt_irrefl 0 hj
    rw [hentries', Function.update_of_ne hne]
  · rw [hentries', Function.update_self]
    rfl
  · rw [setSlot_table, hsame.tables, hfd]

theorem fileOpen_opened (h : FileInv s []) (ht : t ∈ s.live) {vfsOpen : VfsOpen} {name : String}
    {flags : BitVec 32} (hd : (fileOpen vfsOpen s t name flags).1 = .ok d) :
    ∃ i n, vfsOpen name (if flags &&& oDirectory ≠ 0 then vfsTypeDirectory else vfsTypeUnknown)
        (openMode flags) = .ok n ∧
      OpenedAt s (fileOpen vfsOpen s t name flags).2 t i d (flags &&& oCloexec ≠ 0)
        ⟨some n, flags, 0⟩ := by
  have hinv := (fileOpen_keeps h ht vfsOpen name flags).inv
  unfold fileOpen at hd hinv ⊢
  simp only at hd hinv ⊢
  split at hd
  · cases hd
  rename_i hacc
  rw [if_neg hacc] at hinv ⊢
  split at hd
  · cases hd
  rename_i hdir
  rw [if_neg hdir] at hinv ⊢
  split at hd
  · cases hd
  rename_i i s1 heq
  obtain ⟨hfree, hnone, hstart, hi⟩ := allocFileEntry_some h (by rw [heq])
  rw [heq] at hnone hstart
  simp only [heq] at hinv ⊢
  have hnode : ¬ (s1.fileTable i).node ≠ none := fun hne => hne hnone
  rw [if_neg hnode, hstart] at hd hinv
  rw [if_neg hnode, hstart]
  split at hd
  · cases hd
  rename_i n hn
  simp only [hn] at hinv ⊢
  have hstarted := (h.start hi hfree flags).setNode (i := i)
    (by simp [FileState.setEntry]) (by simp [FileState.setEntry]) n
  have hentries : ((s.setEntry i ⟨true, 1, flags, 0, none⟩).setNode i n).fileTable =
      Function.update s.fileTable i ⟨true, 1, flags, 0, some n⟩ := by
    simp [FileState.setNode, FileState.setEntry]
  split at hd
  · cases hd
  rename_i htype
  rw [if_neg htype] at hinv ⊢
  exact ⟨i, n, rfl, fileOpenDescriptor_opened hstarted ht hfree hentries rfl rfl hd hinv⟩

/-! ## Tasks that have such a table -/

/-- Task `t` has the table `tab`, whose files were opened by actions before
`k`. -/
structure Simulates (info : SpawnFile → FileInfo) (s : FileState) (t k : Nat)
    (tab : SpawnTable) (place : SpawnFile → Nat) : Prop where
  table : ∀ d, (s.fd t).table d = (tab d).map fun x => ⟨place x.file, x.cloexec⟩
  info : ∀ d x, tab d = some x → (s.fileTable (place x.file)).info = info x.file
  apart : ∀ d e x y, tab d = some x → tab e = some y → place x.file = place y.file →
    x.file = y.file
  inherited : ∀ i, place (.inherited i) = i
  opened : ∀ d x j, tab d = some x → x.file = .opened j → j < k

variable {info : SpawnFile → FileInfo} {k : Nat} {tab tab' : SpawnTable}
  {place : SpawnFile → Nat}

theorem Simulates.succ (hs : Simulates info s t k tab place) :
    Simulates info s t (k + 1) tab place :=
  ⟨hs.table, hs.info, hs.apart, hs.inherited, fun d x j hx hj =>
    Nat.lt_succ_of_lt (hs.opened d x j hx hj)⟩

variable {x : SpawnDescriptor}

theorem Simulates.slot (hs : Simulates info s t k tab place) (hx : tab d = some x) :
    (s.fd t).table d = some ⟨place x.file, x.cloexec⟩ := by
  rw [hs.table, hx]
  rfl

theorem Simulates.eq_none (hs : Simulates info s t k tab place) :
    (s.fd t).table d = none ↔ tab d = none := by
  rw [hs.table, Option.map_eq_none_iff]

section

variable (hs : Simulates info s t k tab place) (h : FileInv s []) (ht : t ∈ s.live)
include hs h ht

theorem Simulates.count_pos (hx : tab d = some x) : 0 < (s.fileTable (place x.file)).count :=
  h.count_pos ht (hs.slot hx)

theorem Simulates.sub (htouch : Touches s s' t)
    (htable : ∀ d, (s'.fd t).table d = (tab' d).map fun x => ⟨place x.file, x.cloexec⟩)
    (hsub : ∀ d x, tab' d = some x → ∃ e y, tab e = some y ∧ y.file = x.file) :
    Simulates info s' t k tab' place := by
  refine ⟨htable, fun d x hx => ?_, fun d e x y hx hy hxy => ?_, hs.inherited,
    fun d x j hx hj => ?_⟩
  · obtain ⟨e, y, hy, hfile⟩ := hsub d x hx
    have hpos := hs.count_pos h ht hy
    have hpos' : 0 < (s'.fileTable (place x.file)).count := by
      refine htouch.inv.count_pos (v := ⟨place x.file, x.cloexec⟩) (d := d)
        (htouch.live ▸ ht) ?_
      rw [htable, hx]
      rfl
    rw [hfile] at hpos
    rw [htouch.kept _ hpos hpos', ← hfile]
    exact hs.info e y hy
  · obtain ⟨dx, x', hx', hfx⟩ := hsub d x hx
    obtain ⟨dy, y', hy', hfy⟩ := hsub e y hy
    rw [← hfx, ← hfy] at hxy ⊢
    exact hs.apart dx dy x' y' hx' hy' hxy
  · obtain ⟨e, y, hy, hfile⟩ := hsub d x hx
    exact hs.opened e y j hy (hfile.trans hj)

theorem Simulates.close (fd : Int) :
    Simulates info (fileClose s t fd).2 t k (tab.set fd none) place := by
  refine hs.sub h ht (fileClose_touches h ht fd) (fun d => ?_) fun d x hx => ⟨d, x, ?_, rfl⟩
  · rw [fileClose_table h ht, SpawnTable.set]
    split
    · by_cases hd : d = fd.toNat
      · subst hd
        simp
      · rw [Function.update_of_ne hd, Function.update_of_ne hd]
        exact hs.table d
    · exact hs.table d
  · unfold SpawnTable.set at hx
    split at hx
    · by_cases hd : d = fd.toNat
      · subst hd
        simp at hx
      · rwa [Function.update_of_ne hd] at hx
    · exact hx

theorem Simulates.dupInto (hx : tab d = some x) {newFd : Nat} (hnew : newFd < taskFdStaticCount)
    (hfree : tab newFd = none) :
    Simulates info (fileDupInto s t newFd ⟨place x.file, x.cloexec⟩ 0).2 t k
      (Function.update tab newFd (some ⟨x.file, false⟩)) place := by
  obtain ⟨htouch, htable⟩ := fileDupInto_touches h ht (hs.slot hx) hnew (hs.eq_none.mpr hfree) 0
  refine hs.sub h ht htouch (fun e => ?_) fun e y hy => ?_
  · rw [htable]
    by_cases he : e = newFd
    · subst he
      simp
    · rw [Function.update_of_ne he, Function.update_of_ne he]
      exact hs.table e
  · by_cases he : e = newFd
    · subst he
      rw [Function.update_self] at hy
      obtain rfl := Option.some.inj hy
      exact ⟨d, x, hx, rfl⟩
    · rw [Function.update_of_ne he] at hy
      exact ⟨e, y, hy, rfl⟩

theorem Simulates.open {c : Bool} (ho : OpenedAt s s' t i d c (info (.opened k))) :
    Simulates info s' t (k + 1) (Function.update tab d (some ⟨.opened k, c⟩))
      (Function.update place (.opened k) i) := by
  have hold : ∀ e x, tab e = some x → x.file ≠ .opened k := fun e x hx hk =>
    lt_irrefl k (hs.opened e x k hx hk)
  have hplace : ∀ e x, tab e = some x →
      Function.update place (.opened k) i x.file = place x.file := fun e x hx =>
    Function.update_of_ne (hold e x hx) ..
  have hne : ∀ e x, tab e = some x → place x.file ≠ i := by
    intro e x hx hi
    have hpos := hs.count_pos h ht hx
    rw [hi, ho.fresh] at hpos
    omega
  have hcases : ∀ e x, Function.update tab d (some ⟨.opened k, c⟩) e = some x →
      e = d ∧ x = ⟨.opened k, c⟩ ∨ e ≠ d ∧ tab e = some x := by
    intro e x hx
    by_cases he : e = d
    · subst he
      rw [Function.update_self] at hx
      exact .inl ⟨rfl, (Option.some.inj hx).symm⟩
    · rw [Function.update_of_ne he] at hx
      exact .inr ⟨he, hx⟩
  have htable : ∀ e, (s'.fd t).table e = (Function.update tab d (some ⟨.opened k, c⟩) e).map
      fun x => ⟨Function.update place (.opened k) i x.file, x.cloexec⟩ := by
    intro e
    rw [ho.table]
    by_cases he : e = d
    · subst he
      simp
    · rw [Function.update_of_ne he, Function.update_of_ne he, hs.table]
      exact Option.map_congr fun x hx => by rw [hplace e x hx]
  refine ⟨htable, fun e x hx => ?_, fun e1 e2 x y hx hy hxy => ?_, fun j => ?_,
    fun e x j hx hj => ?_⟩
  · have hpos : 0 < (s'.fileTable (Function.update place (.opened k) i x.file)).count := by
      refine ho.touches.inv.count_pos (v := ⟨_, x.cloexec⟩) (d := e)
        (ho.touches.live ▸ ht) ?_
      rw [htable, hx]
      rfl
    rcases hcases e x hx with ⟨-, rfl⟩ | ⟨-, hx'⟩
    · rw [Function.update_self]
      exact ho.info
    · rw [hplace e x hx'] at hpos ⊢
      rw [ho.touches.kept _ (hs.count_pos h ht hx') hpos]
      exact hs.info e x hx'
  · rcases hcases e1 x hx with ⟨-, rfl⟩ | ⟨-, hx'⟩ <;>
      rcases hcases e2 y hy with ⟨-, rfl⟩ | ⟨-, hy'⟩
    · rfl
    · rw [Function.update_self, hplace e2 y hy'] at hxy
      exact absurd hxy.symm (hne e2 y hy')
    · rw [Function.update_self, hplace e1 x hx'] at hxy
      exact absurd hxy (hne e1 x hx')
    · rw [hplace e1 x hx', hplace e2 y hy'] at hxy
      exact hs.apart e1 e2 x y hx' hy' hxy
  · exact hs.inherited j
  · rcases hcases e x hx with ⟨-, rfl⟩ | ⟨-, hx'⟩
    · obtain rfl : k = j := SpawnFile.opened.inj hj
      omega
    · exact Nat.lt_succ_of_lt (hs.opened e x j hx' hj)

end

end Dancy.Files
