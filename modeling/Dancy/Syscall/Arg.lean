import Dancy.Lib.Memory
import Dancy.Pg.Check

/-!
# Arguments of a program

`arg_create` copies the path, `argv` and `envp` of a caller to a block of
the kernel, with pointers that are right where `arg_copy` places the block,
below `0x80000000`. `arg_enable_path` puts the path in front for the loader
of scripts, and `arg_set_cmdline` makes the command line of the task from
the copy.
-/

namespace Dancy.Syscall

open Dancy.Lib Dancy.Pg List

structure CString where
  bytes : List Nat
  solid : ∀ b ∈ bytes, b ≠ 0

def CString.memory (s : CString) : Memory := fun i => s.bytes.getD i 0

/-- What `node` is: no node, and then the path is the command line of the
task, or a node with what `vfs_realpath` returns for it. -/
inductive ArgNode where
  | null (line : CString)
  | node (realpath : Except Nat CString)

/-- The memory of the caller and what `pg_check_user_read` returns for a
byte of it, neither of which changes during the call. -/
structure UserMemory where
  byte : Memory
  byte_lt : ∀ a, byte a < 256
  page : Nat → Option PgCode

inductive ArgCode where
  | path (r : Nat)
  | check (code : PgCode)
  | overflow
  | memory
  | unexpected

/-- How a call ends. `endless` is a loop that does not find its end. -/
inductive Outcome (α : Type) where
  | error (code : ArgCode)
  | panic
  | endless
  | ok (value : α)

def Outcome.isOk {α : Type} : Outcome α → Bool
  | .ok _ => true
  | _ => false

theorem Outcome.eq_ok {α : Type} {o : Outcome α} (h : o.isOk = true) : ∃ v, o = .ok v := by
  cases o with
  | ok v => exact ⟨v, rfl⟩
  | _ => cases h

def UserMemory.checkRead (u : UserMemory) (a : Nat) : Option PgCode :=
  if a < userBase then some .access else u.page a

/-- The loop of `pg_check_user_string` and `pg_check_user_vector`. -/
def checkLoop (u : UserMemory) (width : Nat) : Nat → Nat → Bool → Nat → Except PgCode Nat
  | 0, _, _, _ => .error .overflow
  | left + 1, s, checkPage, count =>
    match if checkPage then u.checkRead s else none with
    | some code => .error code
    | none =>
      if load u.byte s width = 0 then .ok count
      else
        checkLoop u width left ((s + width) % addrTop) (s % 0x1000 == 0x1000 - width)
          (count + 1)

def checkUserString (u : UserMemory) (vaddr : Nat) : Except PgCode Nat :=
  checkLoop u 1 intMax vaddr true 0

def checkUserVector (u : UserMemory) (vaddr : Nat) : Except PgCode Nat :=
  if vaddr % 8 ≠ 0 then .error .alignment else checkLoop u 8 intMax vaddr true 0

/-! ## Making the block -/

/-- The conversion to `int`. -/
def toInt (n : Nat) : Int :=
  if n % 0x100000000 < 0x80000000 then (n % 0x100000000 : Nat)
  else (n % 0x100000000 : Nat) - 0x100000000

def headerSize : Nat := 32

/-- The loops that add the sizes of the strings of a vector. -/
def addStrings (u : UserMemory) (vector : Nat) : Nat → Nat → Nat → Except ArgCode Nat
  | 0, _, size => .ok size
  | left + 1, i, size =>
    match checkUserString u (load u.byte (vector + 8 * i) 8) with
    | .error r => .error (.check r)
    | .ok count =>
      if toInt size < (intMax : Int) - count then
        addStrings u vector left (i + 1) (size + (count + 1))
      else .error .overflow

/-- The loops that store the pointers of a vector and its strings: the
memory and the pointer after them. -/
def storeStrings (u : UserMemory) (vector base : Nat) :
    Nat → Nat → Memory → Nat → Nat → Option (Memory × Nat)
  | 0, _, m, _, p => some (m, p)
  | left + 1, i, m, slot, p =>
    let s := load u.byte (vector + 8 * i) 8
    match strcpy u.byte intMax (store m slot 8 (base + p)) p s with
    | none => none
    | some (m, p) => storeStrings u vector base left (i + 1) m (slot + 8) p

/-- The block: `arg_state` and its size. -/
structure ArgState where
  memory : Memory
  size : Nat

def argPath : ArgNode → Except Nat CString
  | .null line => .ok line
  | .node r => r

/-- The number of pointers of a vector, which may be `NULL`. -/
def vectorCount (u : UserMemory) (vector : Nat) : Except PgCode Nat :=
  if vector = 0 then .ok 0 else checkUserVector u vector

/-- `*size = (*size + 0x1F) & 0xFFFFFFE0`. -/
def allocSize (size : Nat) : Nat := (size + 0x1F) % 0x100000000 / 0x20 * 0x20

def argMax : Nat := 0x04000000

/-- From the sizes on: the header, the vectors and the strings. -/
def argFill (u : UserMemory) (path : CString) (argv envp argvCount envpCount size : Nat) :
    Outcome ArgState :=
  let total := allocSize size
  let base := 0x80000000 - total
  let argvOff := headerSize
  let envpOff := argvOff + (argvCount + 3) * 8
  let strings := envpOff + (envpCount + 1) * 8
  let m : Memory := fun _ => 0
  let m := store m 0 8 argvCount
  let m := store m 24 8 total
  let m := store m 8 8 (base + argvOff)
  let m := store m 16 8 (base + envpOff)
  match strcpy path.memory (path.bytes.length + 1) (store m argvOff 8 (base + strings)) strings 0 with
  | none => .endless
  | some (m, p) =>
    match storeStrings u argv base argvCount 0 m (argvOff + 8) p with
    | none => .endless
    | some (m, p) =>
      match storeStrings u envp base envpCount 0 m envpOff p with
      | none => .endless
      | some (m, p) =>
        if p ≠ size then .panic
        else .ok ⟨store m 8 8 (load m 8 8 + 8), total⟩

/-- `arg_create`; `memory` says whether the block can be allocated. -/
def argCreate (u : UserMemory) (node : ArgNode) (argv envp : Nat) (memory : Bool) :
    Outcome ArgState :=
  match argPath node with
  | .error r => .error (.path r)
  | .ok path =>
    match vectorCount u argv with
    | .error r => .error (.check r)
    | .ok argvCount =>
      match vectorCount u envp with
      | .error r => .error (.check r)
      | .ok envpCount =>
        if argvCount > 0xFFFF ∨ envpCount > 0xFFFF then .error .overflow
        else
          let size := headerSize + (argvCount + 3) * 8 + (envpCount + 1) * 8 +
            (path.bytes.length + 1)
          match addStrings u argv argvCount 0 size with
          | .error r => .error r
          | .ok size =>
            match addStrings u envp envpCount 0 size with
            | .error r => .error r
            | .ok size =>
              if size > argMax then .error .overflow
              else if !memory then .error .memory
              else argFill u path argv envp argvCount envpCount size

def argEnablePath (st : ArgState) : ArgState :=
  let m := store st.memory 0 8 (load st.memory 0 8 + 1)
  let m := store m 8 8 (load m 8 8 + addrTop - 8)
  { st with memory := store m (headerSize + 8) 8 (load m headerSize 8) }

/-- The memory of the task and its stack pointer after `arg_copy`. -/
structure Placed where
  memory : Memory
  userSp : Nat

/-- `arg_copy`; `map` says whether `pg_map_user` succeeds. The pages it maps
are filled with zeros. -/
def argCopy (st : ArgState) (old : Memory) (map : Bool) : Outcome Placed :=
  let size := load st.memory 24 8
  let base := 0x80000000 - size
  if base % 0x20 ≠ 0 ∨ base < 0x7C000000 ∨ base ≥ 0x80000000 then .error .unexpected
  else
    let m := store st.memory 24 8 0
    if !map then .error .memory
    else .ok
      { memory := fun a =>
          if base ≤ a ∧ a < base + size then m (a - base)
          else if (base - 0x2000) / 0x1000 * 0x1000 ≤ a ∧ a < 0x80000000 then 0
          else old a
        userSp := base - 8 }

/-! ## The command line -/

def loaderPath : List Nat := "/bin/ld-dancy".toList.map Char.toNat

/-- The first loop over the arguments, with `strlen`. -/
def addLengths (m : Memory) (argv : Nat) : Nat → Nat → Nat → Option Nat
  | 0, _, size => some size
  | left + 1, i, size =>
    match strlen m intMax (load m (argv + 8 * i) 8) with
    | none => none
    | some add => addLengths m argv left (i + 1) (if add ≠ 0 then size + (add + 1) else size)

/-- The second loop: the buffer and `size`. -/
def appendStrings (m : Memory) (argv : Nat) : Nat → Nat → Memory → Nat → Option (Memory × Nat)
  | 0, _, buffer, size => some (buffer, size)
  | left + 1, i, buffer, size =>
    let p := load m (argv + 8 * i) 8
    if m p = 0 then appendStrings m argv left (i + 1) buffer size
    else
      match strcpy m intMax buffer size p with
      | none => none
      | some (buffer, size) => appendStrings m argv left (i + 1) buffer size

/-- The command line after `path`, `argc` and `argv` are known; `memory`
says whether a buffer of its own can be allocated. The result is the buffer
and its size. -/
def cmdlineFill (m : Memory) (path : CString) (argc argv : Nat) (memory : Bool) :
    Outcome (Memory × Nat) :=
  let bufferSize := 1 + (path.bytes.length + 1)
  if bufferSize ≤ 2 ∨ bufferSize ≥ 256 then .error .unexpected
  else
    match addLengths m argv (argc - 1) 1 bufferSize with
    | none => .endless
    | some bufferSize =>
      if bufferSize > 32 && !memory then .error .memory
      else
        match strcpy path.memory 256 (fun _ => 0) 0 0 with
        | none => .endless
        | some (buffer, size) =>
          match appendStrings m argv (argc - 1) 1 buffer size with
          | none => .endless
          | some (buffer, size) =>
            let buffer := Function.update buffer size 0
            let size := size + 1
            if size ≠ bufferSize then .panic else .ok (buffer, size)

/-- At most the first so many bytes of a string. -/
def CString.take (s : CString) (n : Nat) : CString :=
  ⟨s.bytes.take n, fun b hb => s.solid b (mem_of_mem_take hb)⟩

def argSetCmdline (m : Memory) (node : ArgNode) (userSp : Nat) (memory : Bool) :
    Outcome (Memory × Nat) :=
  let ah := userSp + 8
  let argc := load m ah 8
  let argv := load m (ah + 8) 8
  match node with
  | .null line =>
    let path := line.take 255
    if path.bytes = loaderPath then cmdlineFill m path (argc + 1) ((argv + addrTop - 8) % addrTop) memory
    else cmdlineFill m path argc argv memory
  | .node (.error r) => .error (.path r)
  | .node (.ok path) => cmdlineFill m path argc argv memory

/-- A vector of strings at `a`, read through its pointers. -/
structure ArgsAt (m : Memory) (a : Nat) (l : List (List Nat)) : Prop where
  pointer : ∀ (i : Nat), i < l.length → load m (a + 8 * i) 8 ≠ 0
  string : ∀ (i : Nat) (h : i < l.length), StringAt m (load m (a + 8 * i) 8) l[i]
  ends : load m (a + 8 * l.length) 8 = 0

/-- The strings of a vector the caller gives, which may be `NULL`. -/
def Given (u : UserMemory) (vector : Nat) (l : List (List Nat)) : Prop :=
  (vector = 0 ∧ l = []) ∨ (vector ≠ 0 ∧ ArgsAt u.byte vector l)

def stringBytes (l : List (List Nat)) : Nat := (l.map fun s => s.length + 1).sum

@[simp] theorem stringBytes_cons (s : List Nat) (l : List (List Nat)) :
    stringBytes (s :: l) = (s.length + 1) + stringBytes l := rfl

/-! ## Loops of the checks -/

variable {u : UserMemory}

theorem load_one (u : UserMemory) (a : Nat) : load u.byte a 1 = u.byte a := by
  rw [load, load, Nat.mod_eq_of_lt (u.byte_lt a)]
  omega

theorem checkLoop_wrap (u : UserMemory) (width left count : Nat) :
    checkLoop u width left 0 true count = .error .overflow ∨
      checkLoop u width left 0 true count = .error .access := by
  cases left with
  | zero => exact .inl rfl
  | succ left =>
    right
    rfl

theorem checkLoop_turn {width left s count c : Nat} {cp : Bool}
    (h : checkLoop u width (left + 1) s cp count = .ok c) :
    (load u.byte s width = 0 ∧ c = count) ∨
    (load u.byte s width ≠ 0 ∧
      checkLoop u width left ((s + width) % addrTop) (s % 0x1000 == 0x1000 - width)
        (count + 1) = .ok c) := by
  rw [checkLoop] at h
  split at h
  · cases h
  · split at h
    · next h0 => exact .inl ⟨h0, by cases h; rfl⟩
    · next h0 => exact .inr ⟨h0, h⟩

theorem checkLoop_string : ∀ {left s count c : Nat} {cp : Bool}, s < addrTop →
    checkLoop u 1 left s cp count = .ok c →
    ∃ str, StringAt u.byte s str ∧ c = count + str.length ∧ str.length < left := by
  intro left
  induction left with
  | zero => intro s count c cp _ h; cases h
  | succ left ih =>
    intro s count c cp hs h
    rcases checkLoop_turn h with ⟨h0, rfl⟩ | ⟨h0, h⟩
    · rw [load_one] at h0
      exact ⟨[], .nil h0, rfl, by simp⟩
    rw [load_one] at h0
    by_cases hw : s + 1 = addrTop
    · rw [hw, Nat.mod_self, show (s % 0x1000 == 0x1000 - 1) = true by
        unfold addrTop at hw; simp; omega] at h
      rcases checkLoop_wrap u 1 left (count + 1) with hc | hc <;>
        exact absurd (hc.symm.trans h) nofun
    · rw [Nat.mod_eq_of_lt (by omega)] at h
      obtain ⟨str, hstr, hc, hl⟩ := ih (by omega) h
      exact ⟨u.byte s :: str, .cons h0 hstr, by rw [length_cons]; omega,
        by rw [length_cons]; omega⟩

theorem checkUserString_spec {s c : Nat} (hs : s < addrTop) (h : checkUserString u s = .ok c) :
    ∃ str, StringAt u.byte s str ∧ c = str.length ∧ str.length < intMax := by
  obtain ⟨str, hstr, hc, hl⟩ := checkLoop_string hs h
  exact ⟨str, hstr, by omega, hl⟩

theorem checkLoop_vector : ∀ {left s count c : Nat} {cp : Bool}, s < addrTop → s % 8 = 0 →
    checkLoop u 8 left s cp count = .ok c →
    ∃ n, c = count + n ∧ (∀ i, i < n → load u.byte (s + 8 * i) 8 ≠ 0) ∧
      load u.byte (s + 8 * n) 8 = 0 := by
  intro left
  induction left with
  | zero => intro s count c cp _ _ h; cases h
  | succ left ih =>
    intro s count c cp hs h8 h
    rcases checkLoop_turn h with ⟨h0, rfl⟩ | ⟨h0, h⟩
    · exact ⟨0, rfl, fun i hi => absurd hi (Nat.not_lt_zero i), h0⟩
    by_cases hw : s + 8 = addrTop
    · rw [hw, Nat.mod_self, show (s % 0x1000 == 0x1000 - 8) = true by
        unfold addrTop at hw; simp; omega] at h
      rcases checkLoop_wrap u 8 left (count + 1) with hc | hc <;>
        exact absurd (hc.symm.trans h) nofun
    have hlt : s + 8 < addrTop := by unfold addrTop at hs hw ⊢; omega
    rw [Nat.mod_eq_of_lt hlt] at h
    obtain ⟨n, hc, hp, he⟩ := ih hlt (by omega) h
    refine ⟨n + 1, by omega, fun i hi => ?_, ?_⟩
    · cases i with
      | zero => exact h0
      | succ i =>
        rw [show s + 8 * (i + 1) = s + 8 + 8 * i by ring]
        exact hp i (by omega)
    · rwa [show s + 8 * (n + 1) = s + 8 + 8 * n by ring]

theorem load_lt_addrTop (m : Memory) (a : Nat) : load m a 8 < addrTop := load_lt m 8 a

theorem addStrings_spec {vector : Nat} : ∀ {n i size size' : Nat},
    addStrings u vector n i size = .ok size' →
    ∃ l : List (List Nat), l.length = n ∧ size' = size + stringBytes l ∧
      ∀ (j : Nat) (h : j < l.length), l[j].length < intMax ∧
        StringAt u.byte (load u.byte (vector + 8 * (i + j)) 8) l[j] := by
  intro n
  induction n with
  | zero =>
    intro i size size' h
    cases h
    exact ⟨[], rfl, rfl, fun j hj => absurd hj (Nat.not_lt_zero j)⟩
  | succ n ih =>
    intro i size size' h
    rw [addStrings] at h
    split at h
    · cases h
    next count hcount =>
      split at h
      · obtain ⟨str, hstr, rfl, hlen⟩ := checkUserString_spec (load_lt_addrTop _ _) hcount
        obtain ⟨l, hl, hsize, hat⟩ := ih h
        refine ⟨str :: l, by simp [hl], by rw [hsize, stringBytes_cons]; ring, fun j hj => ?_⟩
        cases j with
        | zero => exact ⟨hlen, hstr⟩
        | succ j =>
          rw [show i + (j + 1) = i + 1 + j by ring]
          exact hat j (by simpa using hj)
      · cases h

theorem given_of_checks {vector count size size' : Nat} (hv : vector < addrTop)
    (hcount : vectorCount u vector = .ok count)
    (hsize : addStrings u vector count 0 size = .ok size') :
    ∃ l, Given u vector l ∧ l.length = count ∧ size' = size + stringBytes l ∧
      ∀ (j : Nat) (h : j < l.length), l[j].length < intMax ∧
        StringAt u.byte (load u.byte (vector + 8 * j) 8) l[j] := by
  obtain ⟨l, hl, hs, hat⟩ := addStrings_spec hsize
  simp only [zero_add] at hat
  refine ⟨l, ?_, hl, hs, hat⟩
  rw [vectorCount] at hcount
  split at hcount
  · next h0 =>
      cases hcount
      exact .inl ⟨h0, length_eq_zero_iff.mp hl⟩
  next h0 =>
    rw [checkUserVector] at hcount
    split at hcount
    · cases hcount
    · next h8 =>
        obtain ⟨n, hn, hp, he⟩ := checkLoop_vector hv (by omega) hcount
        have hcn : l.length = n := by omega
        exact .inr ⟨h0, fun i hi => hp i (by omega), fun i hi => (hat i hi).2, by rw [hcn]; exact he⟩

/-! ## The image of the arguments -/

/-- Pointers of strings that are stored from `slot` on: the strings lie in
`[lo, hi)` of the block, which is placed at `base`. -/
def Row (m : Memory) (base slot lo hi : Nat) (l : List (List Nat)) : Prop :=
  ∀ (i : Nat) (h : i < l.length), ∃ q, lo ≤ q ∧ q + l[i].length + 1 ≤ hi ∧
    load m (slot + 8 * i) 8 = base + q ∧ StringAt m q l[i]

section row

variable {m m' : Memory} {base slot lo hi : Nat} {l : List (List Nat)} {s : List Nat}

theorem Row.nil : Row m base slot lo hi [] := fun i h => absurd h (Nat.not_lt_zero i)

theorem Row.cons (h0 : ∃ q, lo ≤ q ∧ q + s.length + 1 ≤ hi ∧ load m slot 8 = base + q ∧
    StringAt m q s) (h : Row m base (slot + 8) lo hi l) : Row m base slot lo hi (s :: l) := by
  intro i hi'
  cases i with
  | zero => exact h0
  | succ i =>
    rw [show slot + 8 * (i + 1) = slot + 8 + 8 * i by ring]
    exact h i (by simpa using hi')

theorem Row.head (h : Row m base slot lo hi (s :: l)) : ∃ q, lo ≤ q ∧ q + s.length + 1 ≤ hi ∧
    load m slot 8 = base + q ∧ StringAt m q s := h 0 (by simp)

theorem Row.tail (h : Row m base slot lo hi (s :: l)) : Row m base (slot + 8) lo hi l := by
  intro i hi'
  have := h (i + 1) (by simpa using hi')
  rwa [show slot + 8 * (i + 1) = slot + 8 + 8 * i by ring] at this

theorem Row.frame (h : Row m base slot lo hi l)
    (hs : ∀ b, slot ≤ b → b < slot + 8 * l.length → m' b = m b)
    (hb : ∀ b, lo ≤ b → b < hi → m' b = m b) : Row m' base slot lo hi l := by
  intro i hi'
  obtain ⟨q, h1, h2, h3, h4⟩ := h i hi'
  refine ⟨q, h1, h2, ?_, h4.congr fun j hj => hb _ (by omega) (by omega)⟩
  rw [← h3]
  exact load_congr fun j hj => hs _ (by omega) (by omega)

theorem Row.mono {lo' hi' : Nat} (h : Row m base slot lo hi l) (h1 : lo' ≤ lo) (h2 : hi ≤ hi') :
    Row m base slot lo' hi' l := by
  intro i hi
  obtain ⟨q, h3, h4, h5, h6⟩ := h i hi
  exact ⟨q, by omega, by omega, h5, h6⟩

end row

theorem storeStrings_spec (u : UserMemory) (vector base : Nat) :
    ∀ (l : List (List Nat)) (i slot p : Nat) (m : Memory),
    (∀ (j : Nat) (h : j < l.length), l[j].length < intMax ∧
      StringAt u.byte (load u.byte (vector + 8 * (i + j)) 8) l[j]) →
    slot + 8 * l.length ≤ p → base + p + stringBytes l < addrTop →
    ∃ m', storeStrings u vector base l.length i m slot p = some (m', p + stringBytes l) ∧
      Row m' base slot p (p + stringBytes l) l ∧
      ∀ b, (b < slot ∨ slot + 8 * l.length ≤ b) → (b < p ∨ p + stringBytes l ≤ b) →
        m' b = m b := by
  intro l
  induction l with
  | nil =>
    intro i slot p m _ _ _
    exact ⟨m, rfl, .nil, fun _ _ _ => rfl⟩
  | cons s l ih =>
    intro i slot p m hat hslot hbase
    rw [stringBytes_cons] at hbase ⊢
    rw [length_cons] at hslot ⊢
    obtain ⟨hlen, hs⟩ := hat 0 (by simp)
    simp only [getElem_cons_zero, add_zero] at hlen hs
    obtain ⟨m1, he, hs1, hk1⟩ := strcpy_eq u.byte intMax p _ (store m slot 8 (base + p)) hs hlen
    obtain ⟨m', he', hrow, hk⟩ := ih (i + 1) (slot + 8) (p + s.length + 1) m1 (fun j hj => by
        have := hat (j + 1) (by simpa using hj)
        rwa [show i + (j + 1) = i + 1 + j by ring] at this) (by omega) (by omega)
    have hptr : load m' slot 8 = base + p := by
      calc load m' slot 8 = load m1 slot 8 := load_congr fun j hj => hk _ (by omega) (by omega)
        _ = load (store m slot 8 (base + p)) slot 8 := load_congr fun j hj => hk1 _ (by omega)
        _ = base + p := by
          rw [load_store_self]
          exact Nat.mod_eq_of_lt (by unfold addrTop at hbase; omega)
    refine ⟨m', ?_, ?_, ?_⟩
    · rw [storeStrings]
      simp only [he, he']
      congr 2
      omega
    · refine .cons ⟨p, le_rfl, by omega, hptr, ?_⟩ ?_
      · exact hs1.congr fun j hj => hk _ (by omega) (by omega)
      · exact hrow.mono (by omega) (by omega)
    · intro b h1 h2
      rw [hk b (by omega) (by omega), hk1 b (by omega), store_outside (by omega)]

def envpOff (args : List (List Nat)) : Nat := headerSize + (args.length + 3) * 8

def stringsOff (args envs : List (List Nat)) : Nat := envpOff args + (envs.length + 1) * 8

/-- The block of a path and the strings of two vectors. -/
structure Layout (st : ArgState) (base : Nat) (path : List Nat) (args envs : List (List Nat)) :
    Prop where
  argc : load st.memory 0 8 = args.length
  argv : load st.memory 8 8 = base + headerSize + 8
  envp : load st.memory 16 8 = base + envpOff args
  total : load st.memory 24 8 = st.size
  argRow : Row st.memory base headerSize (stringsOff args envs) st.size (path :: args)
  argEnd : load st.memory (headerSize + 8 * (args.length + 1)) 8 = 0
  envRow : Row st.memory base (envpOff args) (stringsOff args envs) st.size envs
  envEnd : load st.memory (envpOff args + 8 * envs.length) 8 = 0
  bound : stringsOff args envs ≤ st.size
  placed : base + st.size = 0x80000000
  align : st.size % 0x20 = 0
  limit : st.size ≤ argMax

theorem CString.stringAt (s : CString) : StringAt s.memory 0 s.bytes := by
  refine ⟨fun i hi => ?_, s.solid, ?_⟩
  · simp [CString.memory, hi]
  · simp [CString.memory]

theorem allocSize_spec {size : Nat} (h : size ≤ argMax) :
    size ≤ allocSize size ∧ allocSize size ≤ argMax ∧ allocSize size % 0x20 = 0 := by
  unfold allocSize argMax at *
  omega

variable {args envs : List (List Nat)}

theorem argFill_spec {u : UserMemory} {path : CString} {argv envp : Nat} (size : Nat)
    (ha : ∀ (j : Nat) (h : j < args.length), args[j].length < intMax ∧ StringAt u.byte (load u.byte (argv + 8 * j) 8) args[j])
    (he : ∀ (j : Nat) (h : j < envs.length), envs[j].length < intMax ∧ StringAt u.byte (load u.byte (envp + 8 * j) 8) envs[j])
    (hsize : size = stringsOff args envs + (path.bytes.length + 1) + stringBytes args + stringBytes envs)
    (hmax : size ≤ argMax) :
    ∃ st base, argFill u path argv envp args.length envs.length size = .ok st ∧
      Layout st base path.bytes args envs := by
  obtain ⟨htotal, hlimit, halign⟩ := allocSize_spec hmax
  unfold argMax at hmax hlimit
  obtain ⟨total, htot⟩ : ∃ t, t = allocSize size := ⟨_, rfl⟩
  rw [← htot] at htotal hlimit halign
  obtain ⟨base, hbase⟩ : ∃ b, b = 0x80000000 - total := ⟨_, rfl⟩
  obtain ⟨start, hstart⟩ : ∃ s, s = stringsOff args envs := ⟨_, rfl⟩
  have hstart' : start = headerSize + (args.length + 3) * 8 + (envs.length + 1) * 8 := hstart
  have hso : headerSize = 32 := rfl
  obtain ⟨m0, hm0⟩ : ∃ m0, m0 = store (store (store (store (fun _ => 0) 0 8 args.length) 24 8
    total) 8 8 (base + headerSize)) 16 8 (base + (headerSize + (args.length + 3) * 8)) := ⟨_, rfl⟩
  have hzero : ∀ b, 32 ≤ b → m0 b = 0 := by
    intro b hb
    rw [hm0, store_outside (by omega), store_outside (by omega), store_outside (by omega),
      store_outside (by omega)]
  obtain ⟨m1, he1, hs1, hk1⟩ := strcpy_eq path.memory _ start 0
    (store m0 headerSize 8 (base + start)) path.stringAt (Nat.lt_succ_self _)
  obtain ⟨m2, he2, hrow2, hk2⟩ := storeStrings_spec u argv base args 0 (headerSize + 8)
    (start + path.bytes.length + 1) m1 (by simpa using ha) (by omega) (by unfold addrTop; omega)
  obtain ⟨m3, he3, hrow3, hk3⟩ := storeStrings_spec u envp base envs 0 (envpOff args)
    (start + path.bytes.length + 1 + stringBytes args) m2 (by simpa using he) (by unfold envpOff; omega) (by unfold addrTop; omega)
  have heo : envpOff args = headerSize + (args.length + 3) * 8 := rfl
  -- the header is below the vectors and the strings
  have hhead : ∀ b, b < 32 → m3 b = m0 b := by
    intro b hb
    rw [hk3 b (by omega) (by omega), hk2 b (by omega) (by omega), hk1 b (by omega),
      store_outside (by omega)]
  have hload : ∀ a, a + 8 ≤ 32 → load m3 a 8 = load m0 a 8 := fun a ha =>
    load_congr fun j hj => hhead _ (by omega)
  have hargv : load m3 8 8 = base + headerSize := by
    rw [hload 8 (by omega), hm0, load_store_of_disjoint (by omega), load_store_self]
    omega
  have hfill : argFill u path argv envp args.length envs.length size =
      .ok ⟨store m3 8 8 (load m3 8 8 + 8), total⟩ := by
    simp only [argFill]
    rw [← htot, ← hbase, ← hm0, ← hstart', he1]
    simp only [he2]
    rw [← heo]
    simp only [he3]
    rw [if_neg (by omega)]
  refine ⟨_, base, hfill, ?_⟩
  rw [hargv]
  have hfar : ∀ b, 16 ≤ b → store m3 8 8 (base + headerSize + 8) b = m3 b := fun b hb =>
    store_outside (by omega)
  have hrows : ∀ {slot : Nat} {l : List (List Nat)}, 32 ≤ slot → Row m3 base slot start total l →
      Row (store m3 8 8 (base + headerSize + 8)) base slot start total l := fun hsl h =>
    h.frame (fun b hb _ => hfar b (by omega)) (fun b hb _ => hfar b (by omega))
  -- slots nothing was stored to
  have hend : ∀ a, 32 ≤ a → (a + 8 ≤ headerSize ∨ headerSize + 8 * (args.length + 1) ≤ a) →
      (a + 8 ≤ envpOff args ∨ envpOff args + 8 * envs.length ≤ a) → a + 8 ≤ start →
      load (store m3 8 8 (base + headerSize + 8)) a 8 = 0 := by
    intro a h0 h1 h2 h3
    refine load_eq_zero fun j hj => ?_
    rw [hfar _ (by omega), hk3 _ (by omega) (by omega), hk2 _ (by omega) (by omega),
      hk1 _ (by omega), store_outside (by omega)]
    exact hzero _ (by omega)
  refine ⟨?_, ?_, ?_, ?_, ?_, ?_, ?_, ?_, ?_, ?_, halign, ?_⟩
  · rw [load_store_of_disjoint (by omega), hload 0 (by omega), hm0,
      load_store_of_disjoint (by omega), load_store_of_disjoint (by omega),
      load_store_of_disjoint (by omega), load_store_self]
    omega
  · rw [load_store_self]
    exact Nat.mod_eq_of_lt (by omega)
  · rw [load_store_of_disjoint (by omega), hload 16 (by omega), hm0, load_store_self]
    omega
  · rw [load_store_of_disjoint (by omega), hload 24 (by omega), hm0,
      load_store_of_disjoint (by omega), load_store_of_disjoint (by omega), load_store_self]
    exact Nat.mod_eq_of_lt (by omega)
  · rw [← hstart]
    refine hrows (by omega) (.cons ⟨start, le_rfl, by omega, ?_, ?_⟩ ?_)
    · calc load m3 headerSize 8 = load m1 headerSize 8 := load_congr fun j hj => by
            rw [hk3 _ (by omega) (by omega), hk2 _ (by omega) (by omega)]
        _ = load (store m0 headerSize 8 (base + start)) headerSize 8 :=
            load_congr fun j hj => hk1 _ (by omega)
        _ = base + start := by
            rw [load_store_self]
            omega
    · exact hs1.congr fun j hj => by
        rw [hk3 _ (by omega) (by omega), hk2 _ (by omega) (by omega)]
    · refine Row.mono (Row.frame hrow2 ?_ ?_) (by omega) (by omega)
      all_goals exact fun b h1 h2 => hk3 _ (by omega) (by omega)
  · exact hend _ (by omega) (by omega) (by omega) (by omega)
  · rw [← hstart]
    exact hrows (by omega) (hrow3.mono (by omega) (by omega))
  · exact hend _ (by omega) (by omega) (by omega) (by omega)
  · show stringsOff args envs ≤ total
    omega
  · show base + total = _
    omega
  · exact hlimit

/-! ## The path in front -/

/-- The block as the header describes it: `argv` at `off`, `envp` at `eoff`
and the strings from `lo` on. What ends `argv` is left open. -/
structure Block (st : ArgState) (base off eoff lo : Nat) (args envs : List (List Nat)) : Prop where
  argc : load st.memory 0 8 = args.length
  argv : load st.memory 8 8 = base + off
  envp : load st.memory 16 8 = base + eoff
  total : load st.memory 24 8 = st.size
  argRow : Row st.memory base off lo st.size args
  envRow : Row st.memory base eoff lo st.size envs
  envEnd : load st.memory (eoff + 8 * envs.length) 8 = 0
  argOff : headerSize ≤ off ∧ off + 8 * (args.length + 1) ≤ lo
  envOff : headerSize ≤ eoff ∧ eoff + 8 * (envs.length + 1) ≤ lo
  bound : lo ≤ st.size
  placed : base + st.size = 0x80000000
  align : st.size % 0x20 = 0
  limit : st.size ≤ argMax

section blocks

variable {st : ArgState} {base : Nat} {path : List Nat} {args envs : List (List Nat)}

theorem Layout.block (h : Layout st base path args envs) :
    Block st base (headerSize + 8) (envpOff args) (stringsOff args envs) args envs where
  argc := h.argc
  argv := by rw [h.argv, add_assoc]
  envp := h.envp
  total := h.total
  argRow := h.argRow.tail
  envRow := h.envRow
  envEnd := h.envEnd
  argOff := by unfold stringsOff envpOff; omega
  envOff := by unfold stringsOff envpOff; omega
  bound := h.bound
  placed := h.placed
  align := h.align
  limit := h.limit

theorem argEnablePath_outside (st : ArgState) {b : Nat} (h : 16 ≤ b)
    (h' : b < headerSize + 8 ∨ headerSize + 16 ≤ b) :
    (argEnablePath st).memory b = st.memory b := by
  show store _ _ _ _ b = _
  rw [store_outside (by omega), store_outside (by omega), store_outside (by omega)]

theorem argEnablePath_slot (st : ArgState) :
    load (argEnablePath st).memory (headerSize + 8) 8 = load st.memory headerSize 8 := by
  have hso : headerSize = 32 := rfl
  show load (store _ _ _ _) _ 8 = _
  rw [load_store_self, load_store_of_disjoint (by omega), load_store_of_disjoint (by omega)]
  exact Nat.mod_eq_of_lt (load_lt _ 8 _)

theorem argEnablePath_load (st : ArgState) {a : Nat} (h : 16 ≤ a)
    (h' : a + 8 ≤ headerSize + 8 ∨ headerSize + 16 ≤ a) :
    load (argEnablePath st).memory a 8 = load st.memory a 8 :=
  load_congr fun j hj => argEnablePath_outside st (by omega) (by omega)

/-- The path, and the arguments with the first one replaced by the path. -/
def withPath (path : List Nat) (args : List (List Nat)) : List (List Nat) :=
  path :: args.set 0 path

theorem withPath_length (path : List Nat) (args : List (List Nat)) :
    (withPath path args).length = args.length + 1 := by
  simp [withPath]

theorem Layout.enabled (h : Layout st base path args envs) :
    Block (argEnablePath st) base headerSize (envpOff args) (stringsOff args envs)
      (withPath path args) envs := by
  have hso : headerSize = 32 := rfl
  have heo : envpOff args = headerSize + (args.length + 3) * 8 := rfl
  have hst : stringsOff args envs = envpOff args + (envs.length + 1) * 8 := rfl
  have hbound := h.bound
  have hplaced := h.placed
  -- the strings are untouched
  have hstr : ∀ b, stringsOff args envs ≤ b → b < st.size →
      (argEnablePath st).memory b = st.memory b := fun b hb _ =>
    argEnablePath_outside st (by omega) (by omega)
  obtain ⟨q, hq1, hq2, hq3, hq4⟩ := h.argRow.head
  have hpath : StringAt (argEnablePath st).memory q path :=
    hq4.congr fun j hj => hstr _ (by omega) (by omega)
  have hfirst : load (argEnablePath st).memory headerSize 8 = base + q := by
    rw [argEnablePath_load st (by omega) (by omega), hq3]
  have hsecond : load (argEnablePath st).memory (headerSize + 8) 8 = base + q := by
    rw [argEnablePath_slot st, hq3]
  refine ⟨?_, ?_, ?_, ?_, ?_, ?_, ?_, ?_, ?_, hbound, hplaced, h.align, h.limit⟩
  · show load (store (store (store _ _ _ _) _ _ _) _ _ _) 0 8 = _
    rw [load_store_of_disjoint (by omega), load_store_of_disjoint (by omega), load_store_self,
      withPath_length, h.argc]
    omega
  · show load (store (store (store _ _ _ _) _ _ _) _ _ _) 8 8 = _
    rw [load_store_of_disjoint (by omega), load_store_self, load_store_of_disjoint (by omega),
      h.argv]
    unfold addrTop
    omega
  · exact h.envp
  · exact h.total
  · refine .cons ⟨q, hq1, hq2, hfirst, hpath⟩ ?_
    cases args with
    | nil => exact .nil
    | cons a args =>
      refine .cons ⟨q, hq1, hq2, hsecond, hpath⟩ ?_
      refine h.argRow.tail.tail.frame (fun b hb _ => ?_) hstr
      exact argEnablePath_outside st (by omega) (by omega)
  · refine h.envRow.frame (fun b hb _ => ?_) hstr
    exact argEnablePath_outside st (by omega) (by omega)
  · rw [argEnablePath_load st (by omega) (by omega)]
    exact h.envEnd
  · rw [withPath_length]
    omega
  · omega

theorem Layout.enabled_end (h : Layout st base path args envs) :
    load (argEnablePath st).memory (headerSize + 8 * (withPath path args).length) 8 = 0 ↔
      args ≠ [] := by
  have hso : headerSize = 32 := rfl
  rw [withPath_length]
  cases args with
  | nil =>
    obtain ⟨q, -, -, hq3, -⟩ := h.argRow.head
    have hplaced := h.placed
    have hlimit := h.limit
    unfold argMax at hlimit
    have := argEnablePath_slot st
    simp only [length_nil, ne_eq, not_true, iff_false]
    rw [show headerSize + 8 * (0 + 1) = headerSize + 8 by omega, this, hq3]
    omega
  | cons a args =>
    rw [argEnablePath_load st (by omega) (by rw [length_cons]; omega)]
    have hend := h.argEnd
    simp only [length_cons] at hend
    simp [hend]

end blocks

/-! ## Arguments survive a call -/

def userTop : Nat := 0x80000000

/-- The pointers of a vector at `a` and their strings lie in
`[base, 0x80000000)`. -/
structure Inside (m : Memory) (base a : Nat) (l : List (List Nat)) : Prop where
  vector : base ≤ a ∧ a + 8 * (l.length + 1) ≤ userTop
  strings : ∀ (i : Nat) (h : i < l.length), base ≤ load m (a + 8 * i) 8 ∧
    load m (a + 8 * i) 8 + l[i].length + 1 ≤ userTop

/-- The image at `base`: the two lists of strings, `argc` and the null
pointers at the ends, and nothing outside the image. -/
structure ImageAt (m : Memory) (base : Nat) (args envs : List (List Nat)) : Prop where
  argc : load m base 8 = args.length
  argv : ArgsAt m (load m (base + 8) 8) args
  envp : ArgsAt m (load m (base + 16) 8) envs
  argvInside : Inside m base (load m (base + 8) 8) args
  envpInside : Inside m base (load m (base + 16) 8) envs

/-- A row of the block in the memory of the task. -/
structure PlacedRow (m : Memory) (base a : Nat) (l : List (List Nat)) : Prop where
  inside : Inside m base a l
  pointer : ∀ (i : Nat), i < l.length → load m (a + 8 * i) 8 ≠ 0
  string : ∀ (i : Nat) (h : i < l.length), StringAt m (load m (a + 8 * i) 8) l[i]

section copy

variable {st : ArgState} {base off eoff lo : Nat} {args envs : List (List Nat)}

theorem argCopy_block (h : Block st base off eoff lo args envs) (old : Memory) (map : Bool) :
    (map = false → argCopy st old map = .error .memory) ∧
    (map = true → ∃ p, argCopy st old map = .ok p ∧ p.userSp + 8 = base ∧
      ∀ o, o < st.size → (o < 24 ∨ 32 ≤ o) → p.memory (base + o) = st.memory o) := by
  have htotal := h.total
  have hplaced := h.placed
  have halign := h.align
  have hlimit := h.limit
  have hpos := h.argOff
  have hbound := h.bound
  unfold argMax at hlimit
  have hbase : 0x80000000 - load st.memory 24 8 = base := by omega
  have hguard : ¬(base % 0x20 ≠ 0 ∨ base < 0x7C000000 ∨ base ≥ 0x80000000) := by omega
  constructor
  · rintro rfl
    simp only [argCopy, hbase, if_neg hguard]
    rfl
  rintro rfl
  simp only [argCopy, hbase, if_neg hguard]
  refine ⟨_, rfl, by show base - 8 + 8 = base; omega, fun o ho hne => ?_⟩
  show (if base ≤ base + o ∧ _ then _ else _) = _
  rw [if_pos (by omega), Nat.add_sub_cancel_left]
  exact store_outside (by omega)

variable {m : Memory}

theorem Row.placed {slot : Nat} {l : List (List Nat)} (h : Row st.memory base slot lo st.size l)
    (hslot : 32 ≤ slot) (hend : slot + 8 * (l.length + 1) ≤ lo) (hb : 0 < base)
    (hlo : lo ≤ st.size) (hplaced : base + st.size = userTop)
    (hm : ∀ o, o < st.size → (o < 24 ∨ 32 ≤ o) → m (base + o) = st.memory o) :
    PlacedRow m base (base + slot) l := by
  have hptr : ∀ (i : Nat) (hi : i < l.length), ∃ q, lo ≤ q ∧ q + l[i].length + 1 ≤ st.size ∧
      load m (base + slot + 8 * i) 8 = base + q ∧ StringAt m (base + q) l[i] := by
    intro i hi
    obtain ⟨q, h1, h2, h3, h4⟩ := h i hi
    refine ⟨q, h1, h2, ?_, h4.congr fun j hj => by rw [add_assoc]; exact hm _ (by omega) (by omega)⟩
    rw [← h3]
    refine load_congr fun j hj => ?_
    rw [show base + slot + 8 * i + j = base + (slot + 8 * i + j) by ring]
    exact hm _ (by omega) (by omega)
  refine ⟨⟨⟨by omega, by omega⟩, ?_⟩, ?_, ?_⟩
  · intro i hi
    obtain ⟨q, h1, h2, h3, -⟩ := hptr i hi
    omega
  · intro i hi
    obtain ⟨q, h1, h2, h3, -⟩ := hptr i hi
    omega
  · intro i hi
    obtain ⟨q, -, -, h3, h4⟩ := hptr i hi
    rwa [h3]

/-- The placed block, and what its image depends on. -/
structure PlacedBlock (m : Memory) (base : Nat) (args envs : List (List Nat)) (last : Nat) :
    Prop where
  argc : load m base 8 = args.length
  argv : base + 32 ≤ load m (base + 8) 8
  argvRow : PlacedRow m base (load m (base + 8) 8) args
  envpRow : PlacedRow m base (load m (base + 16) 8) envs
  argEnd : load m (load m (base + 8) 8 + 8 * args.length) 8 = last
  envEnd : load m (load m (base + 16) 8 + 8 * envs.length) 8 = 0

theorem Block.placedBlock (h : Block st base off eoff lo args envs)
    (hm : ∀ o, o < st.size → (o < 24 ∨ 32 ≤ o) → m (base + o) = st.memory o) :
    PlacedBlock m base args envs (load st.memory (off + 8 * args.length) 8) := by
  have hso : headerSize = 32 := rfl
  have hplaced := h.placed
  have hlimit := h.limit
  have hbound := h.bound
  have hao := h.argOff
  have heo := h.envOff
  unfold argMax at hlimit
  have hload : ∀ o, o + 8 ≤ st.size → (o + 8 ≤ 24 ∨ 32 ≤ o) →
      load m (base + o) 8 = load st.memory o 8 := by
    intro o ho hne
    refine load_congr fun j hj => ?_
    rw [add_assoc]
    exact hm _ (by omega) (by omega)
  have hargc : load m base 8 = args.length := by
    have := hload 0 (by omega) (by omega)
    rw [add_zero] at this
    rw [this, h.argc]
  have hargv : load m (base + 8) 8 = base + off := by rw [hload 8 (by omega) (by omega), h.argv]
  have henvp : load m (base + 16) 8 = base + eoff := by
    rw [hload 16 (by omega) (by omega), h.envp]
  refine ⟨hargc, by omega, ?_, ?_, ?_, ?_⟩
  · rw [hargv]
    exact h.argRow.placed (by omega) hao.2 (by omega) hbound hplaced hm
  · rw [henvp]
    exact h.envRow.placed (by omega) heo.2 (by omega) hbound hplaced hm
  · rw [hargv, add_assoc]
    exact hload _ (by omega) (by omega)
  · rw [henvp, add_assoc, hload _ (by omega) (by omega)]
    exact h.envEnd

theorem PlacedBlock.imageAt_iff {last : Nat} (h : PlacedBlock m base args envs last) :
    ImageAt m base args envs ↔ last = 0 := by
  constructor
  · intro hi
    rw [← h.argEnd]
    exact hi.argv.ends
  · rintro rfl
    exact ⟨h.argc, ⟨h.argvRow.pointer, h.argvRow.string, h.argEnd⟩,
      ⟨h.envpRow.pointer, h.envpRow.string, h.envEnd⟩, h.argvRow.inside, h.envpRow.inside⟩

end copy

/-- The bytes of the strings that are not empty. -/
def nonemptyBytes (l : List (List Nat)) : Nat :=
  (l.map fun s => if s.length ≠ 0 then s.length + 1 else 0).sum

@[simp] theorem nonemptyBytes_cons (s : List Nat) (l : List (List Nat)) :
    nonemptyBytes (s :: l) = (if s.length ≠ 0 then s.length + 1 else 0) + nonemptyBytes l := rfl

section cmdline

variable {m : Memory} {argv : Nat}

theorem addLengths_eq : ∀ {l : List (List Nat)} {i size : Nat},
    (∀ (j : Nat) (h : j < l.length), l[j].length < intMax ∧
      StringAt m (load m (argv + 8 * (i + j)) 8) l[j]) →
    addLengths m argv l.length i size = some (size + nonemptyBytes l) := by
  intro l
  induction l with
  | nil => intros; rfl
  | cons s l ih =>
    intro i size h
    obtain ⟨hlen, hs⟩ := h 0 (by simp)
    simp only [getElem_cons_zero, add_zero] at hlen hs
    rw [length_cons, addLengths, strlen_eq hs hlen]
    simp only
    rw [ih (fun j hj => by
      have := h (j + 1) (by simpa using hj)
      rwa [show i + (j + 1) = i + 1 + j by ring] at this), nonemptyBytes_cons]
    split
    · congr 1
      omega
    · congr 1
      omega

theorem appendStrings_eq : ∀ {l : List (List Nat)} (i size : Nat) (buffer : Memory),
    (∀ (j : Nat) (h : j < l.length), l[j].length < intMax ∧
      StringAt m (load m (argv + 8 * (i + j)) 8) l[j]) →
    ∃ buffer', appendStrings m argv l.length i buffer size =
      some (buffer', size + nonemptyBytes l) := by
  intro l
  induction l with
  | nil => intro i size buffer _; exact ⟨buffer, rfl⟩
  | cons s l ih =>
    intro i size buffer h
    obtain ⟨hlen, hs⟩ := h 0 (by simp)
    simp only [getElem_cons_zero, add_zero] at hlen hs
    have hrest : ∀ (j : Nat) (hj : j < l.length), l[j].length < intMax ∧
        StringAt m (load m (argv + 8 * (i + 1 + j)) 8) l[j] := fun j hj => by
      have := h (j + 1) (by simpa using hj)
      rwa [show i + (j + 1) = i + 1 + j by ring] at this
    rw [length_cons, appendStrings, nonemptyBytes_cons]
    cases s with
    | nil =>
      obtain ⟨b, hb⟩ := ih (i + 1) size buffer hrest
      have h0 : m (load m (argv + 8 * i) 8) = 0 := hs.ends
      refine ⟨b, ?_⟩
      simp only [h0, if_true, hb, length_nil, ne_eq, not_true, if_false]
      congr 2
      omega
    | cons c s =>
      have h0 : m (load m (argv + 8 * i) 8) ≠ 0 := by
        rw [hs.head]
        exact hs.solid c (by simp)
      obtain ⟨b1, he, -, -⟩ := strcpy_eq m intMax size _ buffer hs hlen
      obtain ⟨b, hb⟩ := ih (i + 1) (size + (c :: s).length + 1) b1 hrest
      refine ⟨b, ?_⟩
      simp only [if_neg h0, he, hb]
      rw [if_pos (by simp)]
      congr 2
      omega

theorem cmdlineFill_exact {path : CString} {l : List (List Nat)} {memory : Bool}
    (h : ∀ (j : Nat) (h : j < l.length), l[j].length < intMax ∧
      StringAt m (load m (argv + 8 * (1 + j)) 8) l[j]) {argc : Nat} (hargc : argc - 1 = l.length) :
    cmdlineFill m path argc argv memory ≠ .panic ∧
      cmdlineFill m path argc argv memory ≠ .endless := by
  simp only [cmdlineFill]
  split
  · simp
  next hsize =>
    rw [hargc, addLengths_eq h]
    simp only
    split
    · simp
    obtain ⟨b, he, -, -⟩ := strcpy_eq path.memory 256 0 0 (fun _ => 0)
      path.stringAt (by omega)
    obtain ⟨b', he'⟩ := appendStrings_eq 1 (0 + path.bytes.length + 1) b h
    rw [he]
    simp only [he']
    rw [if_neg (by omega)]
    exact ⟨nofun, nofun⟩

/-- The command line is made from every placed block, whatever the node. -/
theorem PlacedBlock.cmdline {base last : Nat} {args envs : List (List Nat)}
    (h : PlacedBlock m base args envs last) {userSp : Nat} (hsp : userSp + 8 = base)
    (node : ArgNode) (memory : Bool) :
    argSetCmdline m node userSp memory ≠ .panic ∧ argSetCmdline m node userSp memory ≠ .endless := by
  have hstr : ∀ (i : Nat) (hi : i < args.length), args[i].length < intMax ∧
      StringAt m (load m (load m (base + 8) 8 + 8 * i) 8) args[i] := by
    intro i hi
    have := h.argvRow.inside.strings i hi
    unfold userTop at this
    unfold intMax
    exact ⟨by omega, h.argvRow.string i hi⟩
  -- the arguments from the second on
  have htail : ∀ (path : CString), cmdlineFill m path (load m base 8) (load m (base + 8) 8) memory ≠
      .panic ∧ cmdlineFill m path (load m base 8) (load m (base + 8) 8) memory ≠ .endless := by
    intro path
    refine cmdlineFill_exact (l := args.drop 1) (fun j hj => ?_) (by simp [h.argc])
    have := hstr (1 + j) (by simp at hj; omega)
    simpa only [getElem_drop] using this
  simp only [argSetCmdline, hsp]
  cases node with
  | null line =>
    simp only
    split
    · refine cmdlineFill_exact (l := args) (fun j hj => ?_) (by simp [h.argc])
      have hlt := load_lt_addrTop m (base + 8)
      have hargv := h.argv
      have := hstr j hj
      rwa [show (load m (base + 8) 8 + addrTop - 8) % addrTop + 8 * (1 + j) =
        load m (base + 8) 8 + 8 * j by unfold addrTop at hlt ⊢; omega]
    · exact htail _
  | node r =>
    cases r with
    | error r => simp
    | ok path => exact htail path

end cmdline

/-! ## The whole call -/

/-- What becomes of the strings of the caller: the block is placed if its
memory can be mapped, it decodes to the two lists, with the path in front
it decodes to the path and the list with the path for its first string, and
the command line is made from it. -/
structure ArgsSurvive (st : ArgState) (path : CString) (args envs : List (List Nat)) : Prop where
  placed : ∀ (old : Memory), (∃ p, argCopy st old true = .ok p) ∧
    ∃ p, argCopy (argEnablePath st) old true = .ok p
  plain : ∀ (old : Memory) map p, argCopy st old map = .ok p →
    ImageAt p.memory (p.userSp + 8) args envs
  enabled : ∀ (old : Memory) map p, argCopy (argEnablePath st) old map = .ok p →
    ImageAt p.memory (p.userSp + 8) (withPath path.bytes args) envs
  cmdline : ∀ (old : Memory) map p (node : ArgNode) memory,
    argCopy st old map = .ok p ∨ argCopy (argEnablePath st) old map = .ok p →
    argSetCmdline p.memory node p.userSp memory ≠ .panic ∧
      argSetCmdline p.memory node p.userSp memory ≠ .endless

theorem Block.of_argCopy {st : ArgState} {base off eoff lo : Nat}
    (h : Block st base off eoff lo args envs) {old : Memory} {map : Bool} {p : Placed}
    (hp : argCopy st old map = .ok p) :
    p.userSp + 8 = base ∧
      PlacedBlock p.memory base args envs (load st.memory (off + 8 * args.length) 8) := by
  obtain ⟨hfalse, htrue⟩ := argCopy_block h old map
  cases map with
  | false => exact absurd ((hfalse rfl).symm.trans hp) nofun
  | true =>
    obtain ⟨p', hp', hsp, hm⟩ := htrue rfl
    rw [hp] at hp'
    cases hp'
    exact ⟨hsp, h.placedBlock hm⟩

theorem Layout.survive_iff {st : ArgState} {base : Nat} {path : CString}
    (h : Layout st base path.bytes args envs) : ArgsSurvive st path args envs ↔ args ≠ [] := by
  constructor
  · intro hs
    obtain ⟨-, p, hp⟩ := hs.placed fun _ => 0
    obtain ⟨hsp, hb⟩ := h.enabled.of_argCopy hp
    have himage := hs.enabled _ _ _ hp
    rw [hsp] at himage
    exact h.enabled_end.mp (hb.imageAt_iff.mp himage)
  · intro hne
    refine ⟨fun old => ⟨?_, ?_⟩, ?_, ?_, ?_⟩
    · obtain ⟨p, hp, -⟩ := (argCopy_block h.block old true).2 rfl
      exact ⟨p, hp⟩
    · obtain ⟨p, hp, -⟩ := (argCopy_block h.enabled old true).2 rfl
      exact ⟨p, hp⟩
    · intro old map p hp
      obtain ⟨hsp, hb⟩ := h.block.of_argCopy hp
      rw [hsp]
      refine hb.imageAt_iff.mpr ?_
      have hend := h.argEnd
      rwa [show headerSize + 8 * (args.length + 1) = headerSize + 8 + 8 * args.length by ring]
        at hend
    · intro old map p hp
      obtain ⟨hsp, hb⟩ := h.enabled.of_argCopy hp
      rw [hsp]
      exact hb.imageAt_iff.mpr (h.enabled_end.mpr hne)
    · rintro old map p node memory (hp | hp)
      · obtain ⟨hsp, hb⟩ := h.block.of_argCopy hp
        exact hb.cmdline hsp node memory
      · obtain ⟨hsp, hb⟩ := h.enabled.of_argCopy hp
        exact hb.cmdline hsp node memory

/-- A call of `arg_create` ends with an error, or with the block of the path
and the strings of the caller. -/
theorem argCreate_spec (u : UserMemory) (node : ArgNode) (argv envp : Nat) (memory : Bool)
    (hargv : argv < addrTop) (henvp : envp < addrTop) :
    (∃ r, argCreate u node argv envp memory = .error r) ∨
    ∃ path st base args envs, argPath node = .ok path ∧
      argCreate u node argv envp memory = .ok st ∧ Given u argv args ∧ Given u envp envs ∧
      Layout st base path.bytes args envs := by
  simp only [argCreate]
  split
  · simp
  next path hpath =>
    split
    · exact .inl ⟨_, rfl⟩
    next argvCount hac =>
      split
      · simp
      next envpCount hec =>
        split
        · exact .inl ⟨_, rfl⟩
        split
        · simp
        next size1 hs1 =>
          split
          · exact .inl ⟨_, rfl⟩
          next size2 hs2 =>
            split
            · simp
            next hmax =>
              split
              · simp
              right
              obtain ⟨args, hga, rfl, hz1, ha⟩ := given_of_checks hargv hac hs1
              obtain ⟨envs, hge, rfl, hz2, he⟩ := given_of_checks henvp hec hs2
              obtain ⟨st, base, hfill, hlay⟩ := argFill_spec size2 ha he
                (by rw [hz2, hz1]; rfl) (by omega)
              exact ⟨path, st, base, args, envs, hpath, hfill, hga, hge, hlay⟩

/-- The panic of `arg_create` is not reached, and an accepted call keeps the
strings of the caller if and only if it has arguments. -/
theorem args_survive_iff (u : UserMemory) (node : ArgNode) (argv envp : Nat) (memory : Bool)
    (hargv : argv < addrTop) (henvp : envp < addrTop) :
    argCreate u node argv envp memory ≠ .panic ∧
    argCreate u node argv envp memory ≠ .endless ∧
    ∀ path st, argPath node = .ok path → argCreate u node argv envp memory = .ok st →
      ∃ args envs, Given u argv args ∧ Given u envp envs ∧
        (ArgsSurvive st path args envs ↔ args ≠ []) := by
  rcases argCreate_spec u node argv envp memory hargv henvp with ⟨r, hr⟩ | ⟨path, st, base, args, envs, hpath,
    hok, hga, hge, hlay⟩
  · rw [hr]
    exact ⟨nofun, nofun, nofun⟩
  rw [hok]
  refine ⟨nofun, nofun, ?_⟩
  intro path' st' hpath' hst'
  rw [hpath] at hpath'
  cases hpath'
  cases hst'
  exact ⟨args, envs, hga, hge, hlay.survive_iff⟩

/-- A caller without data, and the path of a script. -/
def noData : UserMemory := ⟨fun _ => 0, fun _ => by decide, fun _ => none⟩

def scriptPath : CString := ⟨"/a".toList.map Char.toNat, by decide⟩

/-- A caller with the arguments `a` and `b` and the variable `c`. -/
def someData : UserMemory :=
  ⟨fun a => (([(0, 0x40), (3, 0x10), (8, 0x42), (11, 0x10), (24, 0x44), (27, 0x10), (0x40, 97),
    (0x42, 98), (0x44, 99)] : List (Nat × Nat)).lookup (a - 0x10000000)).getD 0 % 256,
    fun _ => Nat.mod_lt _ (by decide), fun _ => none⟩

theorem args_survive_script : ∃ st args envs,
    argCreate someData (.node (.ok scriptPath)) 0x10000000 0x10000018 true = .ok st ∧
      Given someData 0x10000000 args ∧ Given someData 0x10000018 envs ∧
      ArgsSurvive st scriptPath args envs := by
  obtain ⟨-, -, hiff⟩ := args_survive_iff someData (.node (.ok scriptPath)) 0x10000000 0x10000018
    true (by decide) (by decide)
  obtain ⟨st, hst⟩ := Outcome.eq_ok (o := argCreate someData (.node (.ok scriptPath)) 0x10000000
    0x10000018 true) (by decide +kernel)
  obtain ⟨args, envs, hargs, henvs, hiff⟩ := hiff _ st rfl hst
  refine ⟨st, args, envs, hst, hargs, henvs, hiff.mpr fun hnil => ?_⟩
  rcases hargs with ⟨hzero, -⟩ | ⟨-, hargs⟩
  · exact absurd hzero (by decide)
  · subst hnil
    exact absurd hargs.ends (by decide +kernel)

/-- A script that is started with `argv` `NULL`: its block does not survive,
`argv[argc]` of the loader is the path. -/
theorem args_lost_without_argv :
    ∃ st, argCreate noData (.node (.ok scriptPath)) 0 0 true = .ok st ∧
      ¬ArgsSurvive st scriptPath [] [] := by
  have hok : (argCreate noData (.node (.ok scriptPath)) 0 0 true).isOk = true := by decide
  rcases argCreate_spec noData (.node (.ok scriptPath)) 0 0 true (by decide)
    (by decide) with ⟨r, hr⟩ | ⟨path, st, base, args, envs, hpath, hst, hga, hge, hlay⟩
  · rw [hr] at hok
    exact absurd hok nofun
  cases hpath
  obtain rfl : args = [] := by
    rcases hga with ⟨-, h⟩ | ⟨h, -⟩
    · exact h
    · exact absurd rfl h
  obtain rfl : envs = [] := by
    rcases hge with ⟨-, h⟩ | ⟨h, -⟩
    · exact h
    · exact absurd rfl h
  exact ⟨st, hst, fun h => hlay.survive_iff.mp h rfl⟩

end Dancy.Syscall
