import Dancy.Lib.Slots

/-!
# File descriptors and the file table (`syscall/file.c`)

A descriptor table is an array of words: the address of a file table entry
with the close-on-exec bit, or `0`. Here the address is the index of the
entry. Each operation is one step: `lock[1]` is held inside operations
only, so it is free whenever one starts.
-/

namespace Dancy.Files

open Dancy.Lib

/-- A node that the virtual file system hands out, with its type. -/
structure Node where
  (id type : Nat)
deriving DecidableEq

structure FileTableEntry where
  lock : Bool
  count : Nat
  flags : BitVec 32
  offset : Nat
  node : Option Node

structure Slot where
  fte : Nat
  cloexec : Bool

structure TaskFd where
  state : Nat
  table : Nat → Option Slot

/-- The file table and the descriptor tables of the tasks in `live`.
`opened` and `released` are the nodes that the file table got and gave
back, newest first; no operation reads them. -/
structure FileState where
  fileTable : Nat → FileTableEntry
  live : List Nat
  fd : Nat → TaskFd
  (opened released : List Node)

/-- The `DE_*` codes of these functions; `node` is one of the file system. -/
inductive FileCode where
  | argument
  | memory
  | unexpected
  | directory
  | overflow
  | unsupported
  | node (code : Nat)
deriving DecidableEq

def fileTableCount : Nat := 4096
def taskFdStaticCount : Nat := 64
def intMax : Nat := 0x7FFFFFFF

def oRdonly : BitVec 32 := 0
def oWronly : BitVec 32 := 1
def oRdwr : BitVec 32 := 2
def oAccmode : BitVec 32 := 0x03
def oCloexec : BitVec 32 := 0x0010
def oCreat : BitVec 32 := 0x0020
def oDirectory : BitVec 32 := 0x0040
def oExcl : BitVec 32 := 0x0080
def oTrunc : BitVec 32 := 0x0400
def oAppend : BitVec 32 := 0x1000
def oNonblock : BitVec 32 := 0x2000

def vfsTypeUnknown : Nat := 0
def vfsTypeDirectory : Nat := 3

def vfsModeCreate : Nat := 0x0001
def vfsModeTruncate : Nat := 0x0002
def vfsModeExclusive : Nat := 0x0004
def vfsModeWrite : Nat := 0x0800

/-- `vfs_open` as the file system answers it: name, type and mode. -/
abbrev VfsOpen := String → Nat → Nat → Except Nat Node

namespace FileState

def setEntry (s : FileState) (i : Nat) (e : FileTableEntry) : FileState :=
  { s with fileTable := Function.update s.fileTable i e }

def setFd (s : FileState) (t : Nat) (fd : TaskFd) : FileState :=
  { s with fd := Function.update s.fd t fd }

/-- `task->fd.table[fd] = …` -/
def setSlot (s : FileState) (t fd : Nat) (v : Option Slot) : FileState :=
  s.setFd t { s.fd t with table := Function.update (s.fd t).table fd v }

/-- The word of a descriptor that passes `fd >= 0 && fd < task->fd.state`. -/
def slot (s : FileState) (t : Nat) (fd : Int) : Option Slot :=
  if 0 ≤ fd ∧ fd < (s.fd t).state then (s.fd t).table fd.toNat else none

end FileState

/-- The loops that look for the first free place: `count` of them from `i`. -/
def firstFree (free : Nat → Bool) : Nat → Nat → Option Nat
  | 0, _ => none
  | count + 1, i => if free i then some i else firstFree free count (i + 1)

def allocFileDescriptor (s : FileState) (task : Nat) : Option Nat × FileState :=
  let fd := s.fd task
  match firstFree (fun i => (fd.table i).isNone) fd.state 0 with
  | some i => (some i, s)
  | none =>
    if fd.state < taskFdStaticCount then
      (some fd.state, s.setFd task { fd with state := fd.state + 1 })
    else (none, s)

/-- `alloc_file_entry`. The first loop skips the locked entries, the second
tries them all once more. -/
def allocFileEntry (s : FileState) : Option Nat × FileState :=
  let unlocked := fun i => !(s.fileTable i).lock
  let found := (firstFree unlocked fileTableCount 0).orElse fun _ =>
    firstFree unlocked fileTableCount 0
  match found with
  | some i => (some i, s.setEntry i { s.fileTable i with lock := true })
  | none => (none, s)

/-- `if (fte->count > 0) fte->count -= 1;` -/
def countDown (count : Nat) : Nat := if count > 0 then count - 1 else count

def fileDecrementCount (s : FileState) (i : Nat) : FileState :=
  let e := s.fileTable i
  let count := countDown e.count
  if count = 0 then
    let s := s.setEntry i ⟨false, 0, 0, 0, none⟩
    match e.node with
    | some n => { s with released := n :: s.released }
    | none => s
  else s.setEntry i { e with count := count }

def fileClose (s : FileState) (task : Nat) (fd : Int) : Except FileCode Unit × FileState :=
  match s.slot task fd with
  | some v => (.ok (), (fileDecrementCount s v.fte).setSlot task fd.toNat none)
  | none => (.error .argument, s)

/-- `vmode` of `file_open`. -/
def openMode (flags : BitVec 32) : Nat :=
  let vmode := 0
  let vmode := if flags &&& oCreat ≠ 0 then vmode ||| vfsModeCreate else vmode
  let vmode := if flags &&& oTrunc ≠ 0 then vmode ||| vfsModeTruncate else vmode
  let vmode := if flags &&& oExcl ≠ 0 then vmode ||| vfsModeExclusive else vmode
  if flags &&& oAccmode ≠ oRdonly then vmode ||| vfsModeWrite else vmode

def FileState.setNode (s : FileState) (i : Nat) (n : Node) : FileState :=
  { s.setEntry i { s.fileTable i with node := some n } with opened := n :: s.opened }

/-- An entry that was just allocated gets its count and flags. -/
def FileState.startEntry (s : FileState) (i : Nat) (flags : BitVec 32) : FileState :=
  s.setEntry i { s.fileTable i with count := 1, flags := flags, offset := 0 }

/-- The end of `file_open`: the descriptor. -/
def fileOpenDescriptor (s : FileState) (task i : Nat) (cloexec : Bool) :
    Except FileCode Nat × FileState :=
  match allocFileDescriptor s task with
  | (none, s) => (.error .overflow, fileDecrementCount s i)
  | (some fd, s) => (.ok fd, s.setSlot task fd (some ⟨i, cloexec⟩))

def fileOpen (vfsOpen : VfsOpen) (s : FileState) (task : Nat) (name : String)
    (flags : BitVec 32) : Except FileCode Nat × FileState :=
  let accmode := flags &&& oAccmode
  if accmode ≠ oRdonly ∧ accmode ≠ oWronly ∧ accmode ≠ oRdwr then (.error .argument, s)
  else if flags &&& oDirectory ≠ 0 ∧ accmode ≠ oRdonly then (.error .argument, s)
  else
    let vtype := if flags &&& oDirectory ≠ 0 then vfsTypeDirectory else vfsTypeUnknown
    match allocFileEntry s with
    | (none, s) => (.error .memory, s)
    | (some i, s) =>
      if (s.fileTable i).node ≠ none then (.error .unexpected, s)
      else
        let s := s.startEntry i flags
        match vfsOpen name vtype (openMode flags) with
        | .error r => (.error (.node r), fileDecrementCount s i)
        | .ok n =>
          let s := s.setNode i n
          if n.type = vfsTypeDirectory ∧ accmode ≠ oRdonly then
            (.error .directory, fileDecrementCount s i)
          else fileOpenDescriptor s task i (flags &&& oCloexec ≠ 0)

/-- The end of `file_dup`: `v` is duplicated into `new_fd`, which must be
free. -/
def fileDupInto (s : FileState) (task newFd : Nat) (v : Slot) (flags : BitVec 32) :
    Except FileCode Nat × FileState :=
  let e := s.fileTable v.fte
  if e.count < intMax then
    let s := s.setFd task { s.fd task with
      state := if (s.fd task).state < newFd + 1 then newFd + 1 else (s.fd task).state }
    if (s.fd task).table newFd ≠ none then (.error .unexpected, s)
    else
      let s := s.setSlot task newFd (some ⟨v.fte, flags &&& oCloexec ≠ 0⟩)
      (.ok newFd, s.setEntry v.fte { e with count := e.count + 1 })
  else (.error .overflow, s)

def fileDup (s : FileState) (task : Nat) (fd minFd maxFd : Int) (flags : BitVec 32) :
    Except FileCode Nat × FileState :=
  if minFd < 0 ∨ minFd > maxFd then (.error .argument, s)
  else if fd = minFd ∧ minFd = maxFd then (.error .argument, s)
  else
    match s.slot task fd with
    | none => (.error .argument, s)
    | some v =>
      -- the loop ends at `max_fd` and at the end of the table
      let count := (min maxFd taskFdStaticCount - minFd).toNat
      match firstFree (fun i => ((s.fd task).table i).isNone) count minFd.toNat with
      | some emptyFd => fileDupInto s task emptyFd v flags
      | none =>
        if minFd = maxFd ∧ minFd < taskFdStaticCount then
          fileDupInto (fileClose s task minFd).2 task minFd.toNat v flags
        else (.error .overflow, s)

inductive FcntlCmd where
  | dupfd
  | dupfdCloexec
  | getfd
  | setfd
  | getfl
  | setfl
  | other

/-- `F_SETFL`. -/
def setStatusFlags (flags arg : BitVec 32) : BitVec 32 :=
  let flags := flags &&& ~~~oAppend
  let flags := flags ||| (arg &&& oAppend)
  let flags := flags &&& ~~~oNonblock
  flags ||| (arg &&& oNonblock)

/-- `file_fcntl`; the answer is `*retval`. -/
def fileFcntl (s : FileState) (task : Nat) (fd : Int) (cmd : FcntlCmd) (arg : BitVec 32) :
    Except FileCode Int × FileState :=
  match s.slot task fd with
  | none => (.error .argument, s)
  | some v =>
    let e := s.fileTable v.fte
    match cmd with
    | .dupfd =>
      let r := fileDup s task fd arg.toInt intMax 0
      (r.1.map Int.ofNat, r.2)
    | .dupfdCloexec =>
      let r := fileDup s task fd arg.toInt intMax oCloexec
      (r.1.map Int.ofNat, r.2)
    | .getfd => (.ok (if v.cloexec then 1 else -1), s)
    | .setfd =>
      (.ok (-1), if arg &&& 1 ≠ 0 then s.setSlot task fd.toNat (some { v with cloexec := true })
        else s)
    | .getfl => (.ok e.flags.toInt, s)
    | .setfl => (.ok (-1), s.setEntry v.fte { e with flags := setStatusFlags e.flags arg })
    | .other => (.error .unsupported, s)

/-- The last part of `file_pipe` and `file_openpty`: two descriptors. -/
def filePairDescriptors (s : FileState) (task i0 i1 : Nat) (cloexec : Bool) :
    Except FileCode (Nat × Nat) × FileState :=
  match allocFileDescriptor s task with
  | (none, s) => (.error .overflow, fileDecrementCount (fileDecrementCount s i0) i1)
  | (some fd0, s) =>
    let s := s.setSlot task fd0 (some ⟨i0, cloexec⟩)
    match allocFileDescriptor s task with
    | (none, s) => (.error .overflow, fileDecrementCount (fileClose s task fd0).2 i1)
    | (some fd1, s) => (.ok (fd0, fd1), s.setSlot task fd1 (some ⟨i1, cloexec⟩))

/-- What `file_pipe` and `file_openpty` have in common; `create` is the
answer of `vfs_pipe` or `pty_create`. -/
def filePair (flags0 flags1 : BitVec 32) (cloexec : Bool) (create : Except Nat (Node × Node))
    (s : FileState) (task : Nat) : Except FileCode (Nat × Nat) × FileState :=
  match allocFileEntry s with
  | (none, s) => (.error .memory, s)
  | (some i0, s) =>
    let s := s.startEntry i0 flags0
    match allocFileEntry s with
    | (none, s) => (.error .memory, fileDecrementCount s i0)
    | (some i1, s) =>
      let s := s.startEntry i1 flags1
      match create with
      | .error r => (.error (.node r), fileDecrementCount (fileDecrementCount s i0) i1)
      | .ok (n0, n1) =>
        filePairDescriptors ((s.setNode i0 n0).setNode i1 n1) task i0 i1 cloexec

def filePipe (create : Except Nat (Node × Node)) (s : FileState) (task : Nat)
    (flags : BitVec 32) : Except FileCode (Nat × Nat) × FileState :=
  filePair (oRdonly ||| (flags &&& oNonblock)) (oWronly ||| (flags &&& oNonblock))
    (flags &&& oCloexec ≠ 0) create s task

def fileOpenpty (create : Except Nat (Node × Node)) (s : FileState) (task : Nat) :
    Except FileCode (Nat × Nat) × FileState :=
  filePair oRdwr oRdwr false create s task

/-- The body of the loop of `fd_clone_func`. -/
def fdCloneSlot (task newTask : Nat) (s : FileState) (i : Nat) : FileState :=
  match (s.fd task).table i with
  | none => s.setSlot newTask i none
  | some v =>
    let s := s.setSlot newTask i (some v)
    let e := s.fileTable v.fte
    if e.count > 0 ∧ e.count < intMax then s.setEntry v.fte { e with count := e.count + 1 }
    else s.setSlot newTask i none

def fdCloneFunc (s : FileState) (task newTask : Nat) : FileState :=
  let s := s.setFd newTask { s.fd newTask with state := (s.fd task).state }
  (List.range (s.fd task).state).foldl (fdCloneSlot task newTask) s

/-- The loop of `fd_release_func`, which runs in the task itself. -/
def fdReleaseFunc (s : FileState) (task : Nat) : FileState :=
  (List.range (s.fd task).state).foldl (fun s (i : Nat) => (fileClose s task i).2) s

/-- `task_struct_limit` at its largest. -/
def taskStructLimit : Nat := 131072

/-- `task_create`, as far as descriptors go: the structure of the new task
is cleared, the clone function exists once a descriptor was made. -/
def taskCreate (s : FileState) (task newTask : Nat) : FileState :=
  let s := { s.setFd newTask ⟨0, fun _ => none⟩ with live := newTask :: s.live }
  if (s.fd task).state ≠ 0 then fdCloneFunc s task newTask else s

def taskExit (s : FileState) (task : Nat) : FileState :=
  let s := if (s.fd task).state ≠ 0 then fdReleaseFunc s task else s
  { s with live := s.live.filter (· ≠ task) }

/-! ## The counts of the file table -/

def freeEntry : FileTableEntry := ⟨false, 0, 0, 0, none⟩

namespace FileState

/-- The descriptors of all tasks: pairs of a task and a number. -/
def slots (s : FileState) : Finset (Nat × Nat) :=
  s.live.toFinset ×ˢ Finset.range taskFdStaticCount

def target (s : FileState) (k : Nat × Nat) : Option Nat := ((s.fd k.1).table k.2).map Slot.fte

/-- The number of descriptors that refer to entry `i`. -/
def refs (s : FileState) (i : Nat) : Nat := Slots.refs s.slots s.target i

/-- The number of entries with the node `n`. -/
def holders (s : FileState) (n : Node) : Nat :=
  Slots.refs (Finset.range fileTableCount) (fun i => (s.fileTable i).node) n

end FileState

/-- Entries count the descriptors that refer to them, and those of `extra`. -/
structure FileInv (s : FileState) (extra : List Nat) : Prop where
  counts : ∀ i, (s.fileTable i).count = s.refs i + extra.count i
  free : ∀ i, (s.fileTable i).count = 0 → s.fileTable i = freeEntry
  busy : ∀ i, 0 < (s.fileTable i).count → (s.fileTable i).lock = true ∧ i < fileTableCount
  named : ∀ i, 0 < s.refs i → (s.fileTable i).node ≠ none
  within : ∀ t ∈ s.live, (s.fd t).state ≤ taskFdStaticCount ∧
    ∀ d, (s.fd t).state ≤ d → (s.fd t).table d = none
  handles : ∀ n, s.opened.count n = s.released.count n + s.holders n
  limit : s.live.length ≤ taskStructLimit

variable {s s' : FileState} {extra extra' : List Nat} {t d i : Nat} {v w : Slot}

section

variable (h : FileInv s extra)
include h

theorem FileInv.perm (hp : extra.Perm extra') : FileInv s extra' :=
  ⟨fun i => by rw [← hp.count_eq]; exact h.counts i, h.free, h.busy, h.named, h.within,
    h.handles, h.limit⟩

theorem FileInv.refs_lt (i : Nat) : s.refs i < intMax := by
  have hcard : s.slots.card ≤ taskStructLimit * taskFdStaticCount := by
    rw [FileState.slots, Finset.card_product, Finset.card_range]
    exact Nat.mul_le_mul_right _ ((List.toFinset_card_le _).trans h.limit)
  exact lt_of_le_of_lt ((Slots.refs_le_card _ _ _).trans hcard) (by decide)

theorem FileInv.mem_slots (ht : t ∈ s.live) (hd : d < (s.fd t).state) : (t, d) ∈ s.slots :=
  Finset.mem_product.mpr ⟨List.mem_toFinset.mpr ht,
    Finset.mem_range.mpr (lt_of_lt_of_le hd (h.within t ht).1)⟩

theorem FileInv.lt_state (ht : t ∈ s.live) (hv : (s.fd t).table d = some v) :
    d < (s.fd t).state := by
  by_contra hle
  rw [(h.within t ht).2 d (Nat.le_of_not_lt hle)] at hv
  cases hv

theorem FileInv.count_pos (ht : t ∈ s.live) (hv : (s.fd t).table d = some v) :
    0 < (s.fileTable v.fte).count := by
  have hpos : 0 < s.refs v.fte :=
    Slots.refs_pos (h.mem_slots ht (h.lt_state ht hv)) (by simp [FileState.target, hv])
  have hcount := h.counts v.fte
  omega

end

theorem target_setSlot (s : FileState) (t d : Nat) (v : Option Slot) (k : Nat × Nat) :
    (s.setSlot t d v).target k = if k = (t, d) then v.map Slot.fte else s.target k := by
  obtain ⟨t', d'⟩ := k
  unfold FileState.target FileState.setSlot FileState.setFd
  by_cases ht : t' = t
  · subst ht
    by_cases hd : d' = d
    · subst hd
      simp
    · simp [hd]
  · simp [ht]

/-- A descriptor below `state` changes, with the references held outside. -/
theorem FileInv.setSlot {v : Option Slot} (h : FileInv s extra) (ht : t ∈ s.live)
    (hd : d < (s.fd t).state)
    (hcount : ∀ i, extra'.count i + (if v.map Slot.fte = some i then 1 else 0) =
      extra.count i + (if s.target (t, d) = some i then 1 else 0))
    (hnamed : ∀ i, v.map Slot.fte = some i → (s.fileTable i).node ≠ none) :
    FileInv (s.setSlot t d v) extra' := by
  have hrefs : ∀ i, (s.setSlot t d v).refs i + (if s.target (t, d) = some i then 1 else 0) =
      s.refs i + (if v.map Slot.fte = some i then 1 else 0) := by
    intro i
    have hchange : (s.setSlot t d v).refs i + (if s.target (t, d) = some i then 1 else 0) =
        s.refs i + (if (s.setSlot t d v).target (t, d) = some i then 1 else 0) :=
      Slots.refs_change (h.mem_slots ht hd) fun k _ hk => by rw [target_setSlot, if_neg hk]
    rw [target_setSlot, if_pos rfl] at hchange
    exact hchange
  refine ⟨fun i => ?_, h.free, h.busy, fun i hpos => ?_, fun t' ht' => ?_, h.handles, h.limit⟩
  · have h1 := h.counts i
    have h2 := hcount i
    have h3 := hrefs i
    have h4 : ((s.setSlot t d v).fileTable i).count = (s.fileTable i).count := rfl
    omega
  · by_cases hv : v.map Slot.fte = some i
    · exact hnamed i hv
    · have h3 := hrefs i
      rw [if_neg hv] at h3
      exact h.named i (by omega)
  unfold FileState.setSlot FileState.setFd
  by_cases htt : t' = t
  · subst htt
    obtain ⟨h1, h2⟩ := h.within t' ht'
    simp only [Function.update_self]
    refine ⟨h1, fun d' hd' => ?_⟩
    rw [Function.update_of_ne (by omega)]
    exact h2 d' hd'
  · simp only [Function.update_of_ne htt]
    exact h.within t' ht'

theorem FileInv.attach (h : FileInv s (i :: extra)) (ht : t ∈ s.live) (hd : d < (s.fd t).state)
    (hfree : (s.fd t).table d = none) (hnode : (s.fileTable i).node ≠ none) (c : Bool) :
    FileInv (s.setSlot t d (some ⟨i, c⟩)) extra := by
  refine h.setSlot ht hd (fun j => ?_) fun j hj => ?_
  · simp only [FileState.target, hfree, List.count_cons]
    simp
  · obtain rfl : i = j := Option.some.inj hj
    exact hnode

theorem FileInv.detach (h : FileInv s extra) (ht : t ∈ s.live)
    (hv : (s.fd t).table d = some v) : FileInv (s.setSlot t d none) (v.fte :: extra) := by
  refine h.setSlot ht (h.lt_state ht hv) (fun j => ?_) fun j hj => by cases hj
  simp only [FileState.target, hv, List.count_cons]
  simp

theorem FileInv.setState {n : Nat} (h : FileInv s extra) (hn : (s.fd t).state ≤ n)
    (hmax : n ≤ taskFdStaticCount) :
    FileInv (s.setFd t { s.fd t with state := n }) extra := by
  have htable : ∀ t', ((s.setFd t { s.fd t with state := n }).fd t').table = (s.fd t').table := by
    intro t'
    unfold FileState.setFd
    by_cases htt : t' = t
    · subst htt
      simp
    · simp [htt]
  have htarget : (s.setFd t { s.fd t with state := n }).target = s.target := by
    funext k
    unfold FileState.target
    rw [htable]
  have hrefs : (s.setFd t { s.fd t with state := n }).refs = s.refs := by
    unfold FileState.refs
    rw [htarget]
    rfl
  refine ⟨?_, h.free, h.busy, ?_, fun t' ht' => ?_, h.handles, h.limit⟩
  · rw [hrefs]
    exact h.counts
  · rw [hrefs]
    exact h.named
  obtain ⟨h1, h2⟩ := h.within t' ht'
  unfold FileState.setFd
  by_cases htt : t' = t
  · subst htt
    simp only [Function.update_self]
    exact ⟨hmax, fun d' hd' => h2 d' (le_trans hn hd')⟩
  · simp only [Function.update_of_ne htt]
    exact ⟨h1, h2⟩

/-- An entry changes, with the references held outside and the nodes that
were opened and released. -/
theorem FileInv.setEntry {e : FileTableEntry} {opened released : List Node}
    (h : FileInv s extra) (hi : i < fileTableCount) (hcount : e.count = s.refs i + extra'.count i)
    (hother : ∀ j, j ≠ i → extra'.count j = extra.count j) (hfree : e.count = 0 → e = freeEntry)
    (hbusy : 0 < e.count → e.lock = true)
    (hnamed : 0 < s.refs i → e.node ≠ none)
    (hlog : ∀ n, opened.count n + s.released.count n +
        (if (s.fileTable i).node = some n then 1 else 0) =
      s.opened.count n + released.count n + (if e.node = some n then 1 else 0)) :
    FileInv { s.setEntry i e with opened := opened, released := released } extra' := by
  have hself : (s.setEntry i e).fileTable i = e := Function.update_self ..
  have hne : ∀ j, j ≠ i → (s.setEntry i e).fileTable j = s.fileTable j :=
    fun j hj => Function.update_of_ne hj ..
  refine ⟨fun j => ?_, fun j hj => ?_, fun j hj => ?_, fun j hj => ?_, h.within,
    fun n => ?_, h.limit⟩
  · by_cases hji : j = i
    · subst hji
      rwa [hself]
    · rw [hne j hji, hother j hji]
      exact h.counts j
  · by_cases hji : j = i
    · subst hji
      rw [hself] at hj ⊢
      exact hfree hj
    · rw [hne j hji] at hj ⊢
      exact h.free j hj
  · by_cases hji : j = i
    · subst hji
      rw [hself] at hj ⊢
      exact ⟨hbusy hj, hi⟩
    · rw [hne j hji] at hj ⊢
      exact h.busy j hj
  · by_cases hji : j = i
    · subst hji
      rw [hself]
      exact hnamed hj
    · rw [hne j hji]
      exact h.named j hj
  · have hchange := Slots.refs_change
      (g := fun j => ((s.setEntry i e).fileTable j).node) (i := n) (Finset.mem_range.mpr hi)
      fun j _ hj => by rw [hne j hj]
    simp only [hself] at hchange
    have h1 := h.handles n
    have h2 := hlog n
    unfold FileState.holders at h1
    show opened.count n = released.count n + Slots.refs (Finset.range fileTableCount)
      (fun j => ((s.setEntry i e).fileTable j).node) n
    omega

/-- Counting down gives back a reference held outside; the node is released
when it was the last one. -/
theorem FileInv.decrement (h : FileInv s (i :: extra)) : FileInv (fileDecrementCount s i) extra := by
  have hcount := h.counts i
  rw [List.count_cons_self] at hcount
  have hpos : 0 < (s.fileTable i).count := by omega
  have hother : ∀ j, j ≠ i → extra.count j = (i :: extra).count j := fun j hj =>
    (List.count_cons_of_ne hj.symm).symm
  obtain ⟨hlock, hi⟩ := h.busy i hpos
  unfold fileDecrementCount countDown
  simp only [hpos, if_true]
  split
  · have hzero : (0 : Nat) = s.refs i + extra.count i := by omega
    have hnone : ¬ 0 < s.refs i := by omega
    split
    · rename_i n hn
      show FileInv { s.setEntry i freeEntry with
        opened := s.opened, released := n :: s.released } extra
      refine h.setEntry hi hzero hother (fun _ => rfl) (fun h0 => absurd h0 (lt_irrefl 0))
        (fun h0 => absurd h0 hnone) fun n' => ?_
      simp only [hn, freeEntry, Option.some.injEq, List.count_cons, beq_iff_eq, reduceCtorEq,
        if_false]
      omega
    · rename_i hn
      refine h.setEntry hi hzero hother (fun _ => rfl) (fun h0 => absurd h0 (lt_irrefl 0))
        (fun h0 => absurd h0 hnone) fun n' => ?_
      rw [hn]
  · rename_i hmore
    exact h.setEntry hi (show (s.fileTable i).count - 1 = s.refs i + extra.count i by omega)
      hother (fun h0 => absurd h0 hmore) (fun _ => hlock) (h.named i) fun n => rfl

section

variable (h : FileInv s extra)
include h

theorem FileInv.bump (hpos : 0 < (s.fileTable i).count) :
    FileInv (s.setEntry i { s.fileTable i with count := (s.fileTable i).count + 1 })
      (i :: extra) := by
  obtain ⟨hlock, hi⟩ := h.busy i hpos
  refine h.setEntry hi ?_ (fun j hj => List.count_cons_of_ne hj.symm) (fun h0 => by cases h0)
    (fun _ => hlock) (h.named i) fun n => rfl
  have hcount := h.counts i
  rw [List.count_cons_self]
  show (s.fileTable i).count + 1 = _
  omega

theorem FileInv.unlocked (hlock : (s.fileTable i).lock = false) : s.fileTable i = freeEntry := by
  refine h.free i ?_
  by_contra hne
  rw [(h.busy i (Nat.pos_of_ne_zero hne)).1] at hlock
  cases hlock

theorem FileInv.start (hi : i < fileTableCount) (hfree : s.fileTable i = freeEntry)
    (flags : BitVec 32) : FileInv (s.setEntry i ⟨true, 1, flags, 0, none⟩) (i :: extra) := by
  have hcount := h.counts i
  rw [hfree] at hcount
  change 0 = s.refs i + extra.count i at hcount
  refine h.setEntry hi ?_ (fun j hj => List.count_cons_of_ne hj.symm) (fun h0 => by cases h0)
    (fun _ => rfl) (fun hpos => by omega) fun n => ?_
  · rw [List.count_cons_self]
    show 1 = _
    omega
  · rw [hfree]
    rfl

theorem FileInv.setNode (hpos : 0 < (s.fileTable i).count) (hnone : (s.fileTable i).node = none)
    (n : Node) : FileInv (s.setNode i n) extra := by
  obtain ⟨hlock, hi⟩ := h.busy i hpos
  show FileInv { s.setEntry i { s.fileTable i with node := some n } with
    opened := n :: s.opened, released := s.released } extra
  refine h.setEntry hi (h.counts i) (fun _ _ => rfl) (fun h0 => ?_) (fun _ => hlock)
    (fun _ => nofun) fun n' => ?_
  · change (s.fileTable i).count = 0 at h0
    omega
  · simp only [hnone, List.count_cons, beq_iff_eq, Option.some.injEq, reduceCtorEq, if_false]
    omega

theorem FileInv.setFlags (hpos : 0 < (s.fileTable i).count) (flags : BitVec 32) :
    FileInv (s.setEntry i { s.fileTable i with flags := flags }) extra := by
  obtain ⟨hlock, hi⟩ := h.busy i hpos
  refine h.setEntry hi (h.counts i) (fun _ _ => rfl) (fun h0 => ?_) (fun _ => hlock)
    (h.named i) fun n => rfl
  change (s.fileTable i).count = 0 at h0
  omega

end

end Dancy.Files
