import Dancy.Lib.Ring
import Dancy.Lib.Run

/-!
# Pipes (`vfs/pipe.c`)

Calls of `n_read` and `n_write` work in locked sections of at most 512
bytes; between two sections of a call other calls may run. A state holds the
shared data and the calls; `handed` and `accepted` are the bytes that the
sections of readers and writers have moved, oldest first, with the call.
-/

namespace Dancy.Pipe

open Dancy.Lib List Function

def pipeSize : Nat := 4096

/-- `struct pipe_shared_data`. -/
structure PipeSharedData where
  event : Bool
  count : Int
  ring : Lib.Ring UInt8

inductive PipeType where
  | read
  | write
deriving DecidableEq

/-- The return values: `0` and the `DE_*` codes. -/
inductive PipeCode where
  | ok
  | access
  | empty
  | pipe
  | retry

/-- The local variables of `n_read`; `buffer` is what has been written to
the caller's buffer. -/
structure ReadCall where
  (requestedSize size : Nat)
  buffer : List UInt8
  b : Int
  result : Option PipeCode

/-- The local variables of `n_write`; `buffer` is the caller's buffer. -/
structure WriteCall where
  buffer : List UInt8
  size : Nat
  result : Option PipeCode

def WriteCall.requestedSize (c : WriteCall) : Nat := c.buffer.length

/-! ## The locked sections -/

def nReadBegin (type : PipeType) (requestedSize : Nat) : ReadCall :=
  ⟨requestedSize, 0, [], 0, if type ≠ .read then some .access else none⟩

/-- The inner loop of `n_read`, which ends when `atomicity` is 512; the
first argument counts down. -/
def readLoop : Nat → PipeSharedData → ReadCall → PipeSharedData × ReadCall
  | 0, s, c => (s, c)
  | left + 1, s, c =>
    if c.size < c.requestedSize then
      if s.ring.start ≠ s.ring.stop then
        let b := s.ring.base s.ring.start
        readLoop left { s with ring := s.ring.pop pipeSize 0 }
          { c with b := b.toNat, buffer := c.buffer ++ [b], size := c.size + 1 }
      else
        (if s.count = 2 then { s with event := false } else s, { c with b := -1 })
    else (s, c)

/-- The condition of the outer loop of `n_read`. -/
def ReadCall.proceed (c : ReadCall) : ReadCall :=
  { c with result := if c.b ≥ 0 ∧ c.size < c.requestedSize then none else some .ok }

def readSection (s : PipeSharedData) (c : ReadCall) : PipeSharedData × ReadCall :=
  let r := readLoop 512 s c
  if r.1.count ≠ 2 then
    let s := { r.1 with event := true }
    if r.2.size = 0 then (s, { r.2 with result := some .empty }) else (s, r.2.proceed)
  else (r.1, r.2.proceed)

def nWriteBegin (type : PipeType) (buffer : List UInt8) : WriteCall :=
  ⟨buffer, 0, if type ≠ .write then some .access else none⟩

/-- The inner loop of `n_write`; the second argument is `atomicity`, which
is returned too. -/
def writeLoop : Nat → Nat → PipeSharedData → WriteCall → Nat × PipeSharedData × WriteCall
  | 0, atomicity, s, c => (atomicity, s, c)
  | left + 1, atomicity, s, c =>
    -- `none` is the end of the loop, `*size < requested_size` being false
    match c.buffer[c.size]? with
    | none => (atomicity, s, c)
    | some x =>
      if s.ring.start = Ring.next pipeSize s.ring.stop then (atomicity, s, c)
      else
        writeLoop left (atomicity + 1) { s with ring := s.ring.push pipeSize x }
          { c with size := c.size + 1 }

/-- The end of a section of `n_write` that is not rolled back. -/
def writeEnd (atomicity : Nat) (s : PipeSharedData) (c : WriteCall) :
    PipeSharedData × WriteCall :=
  let s := if atomicity ≠ 0 then { s with event := true } else s
  if atomicity = 0 then (s, { c with result := some .ok })
  else (s, { c with result := if c.size < c.requestedSize then none else some .ok })

def writeSection (s : PipeSharedData) (c : WriteCall) : PipeSharedData × WriteCall :=
  if s.count ≠ 2 then (s, { c with result := some .pipe })
  else
    let originalEnd := s.ring.stop
    let (atomicity, s, c) := writeLoop 512 0 s c
    if c.requestedSize ≤ 512 ∧ c.requestedSize ≠ atomicity then
      ({ s with ring := { s.ring with stop := originalEnd } },
        { c with size := 0, result := some .retry })
    else writeEnd atomicity s c

/-- `n_release` of one of the two nodes. -/
def releaseNode (s : PipeSharedData) : PipeSharedData :=
  { s with count := s.count - 1, event := true }

/-- The shared data that `vfs_pipe` makes. -/
def vfsPipe : PipeSharedData := ⟨false, 2, ⟨fun _ => 0, 0, 0⟩⟩

/-! ## The system -/

structure PipeState where
  shared : PipeSharedData
  reads : Nat → Option ReadCall
  writes : Nat → Option WriteCall
  (handed accepted : List (Nat × UInt8))

/-- A call begins, runs one of its sections, or an end is released. -/
inductive PipeOp where
  | beginRead (id : Nat) (type : PipeType) (requestedSize : Nat)
  | beginWrite (id : Nat) (type : PipeType) (buffer : List UInt8)
  | readSection (id : Nat)
  | writeSection (id : Nat)
  | release

/-- The state after a section of reader `id`, with the bytes it added. -/
def PipeState.readStep (p : PipeState) (id : Nat) (c : ReadCall) : PipeState :=
  let r := readSection p.shared c
  { p with
    shared := r.1
    reads := update p.reads id (some r.2)
    handed := p.handed ++ (r.2.buffer.drop c.size).map (id, ·) }

/-- The state after a section of writer `id`, with the bytes it accepted. -/
def PipeState.writeStep (p : PipeState) (id : Nat) (c : WriteCall) : PipeState :=
  let r := writeSection p.shared c
  { p with
    shared := r.1
    writes := update p.writes id (some r.2)
    accepted := p.accepted ++ ((c.buffer.take r.2.size).drop c.size).map (id, ·) }

inductive PipeStep : PipeState → PipeOp → PipeState → Prop where
  | beginRead (p : PipeState) (id : Nat) (type : PipeType) (requestedSize : Nat) :
      p.reads id = none →
      PipeStep p (.beginRead id type requestedSize)
        { p with reads := update p.reads id (some (nReadBegin type requestedSize)) }
  | beginWrite (p : PipeState) (id : Nat) (type : PipeType) (buffer : List UInt8) :
      p.writes id = none →
      PipeStep p (.beginWrite id type buffer)
        { p with writes := update p.writes id (some (nWriteBegin type buffer)) }
  | readSection (p : PipeState) (id : Nat) (c : ReadCall) :
      p.reads id = some c → c.result = none → PipeStep p (.readSection id) (p.readStep id c)
  | writeSection (p : PipeState) (id : Nat) (c : WriteCall) :
      p.writes id = some c → c.result = none → PipeStep p (.writeSection id) (p.writeStep id c)
  | release (p : PipeState) : PipeStep p .release { p with shared := releaseNode p.shared }

def PipeState.start : PipeState := ⟨vfsPipe, fun _ => none, fun _ => none, [], []⟩

variable {s s' : PipeSharedData} {p : PipeState} {id : Nat}

/-- The part of the invariant that is about the shared data. -/
structure SharedOk (s : PipeSharedData) : Prop where
  wf : s.ring.Wf pipeSize
  event : s.ring.start ≠ s.ring.stop → s.event = true

theorem readLoop_spec : ∀ (left : Nat) (s : PipeSharedData) (c : ReadCall), SharedOk s →
    SharedOk (readLoop left s c).1 ∧ (readLoop left s c).1.count = s.count ∧
      (readLoop left s c).2.requestedSize = c.requestedSize ∧
      ∃ bs, (readLoop left s c).2.buffer = c.buffer ++ bs ∧
        (readLoop left s c).2.size = c.size + bs.length ∧
        s.ring.contents pipeSize = bs ++ (readLoop left s c).1.ring.contents pipeSize ∧
        (c.size ≤ c.requestedSize → (readLoop left s c).2.size ≤ c.requestedSize) := by
  intro left
  induction left with
  | zero =>
    intro s c h
    exact ⟨h, rfl, rfl, [], (append_nil _).symm, rfl, rfl, fun hle => hle⟩
  | succ left ih =>
    intro s c h
    have hstay : ∃ bs : List UInt8, c.buffer = c.buffer ++ bs ∧ c.size = c.size + bs.length ∧
        s.ring.contents pipeSize = bs ++ s.ring.contents pipeSize ∧
        (c.size ≤ c.requestedSize → c.size ≤ c.requestedSize) :=
      ⟨[], (append_nil _).symm, rfl, rfl, fun hle => hle⟩
    unfold readLoop
    split
    · rename_i hless
      split
      · rename_i hne
        have hpop := Ring.contents_pop h.wf hne 0
        obtain ⟨h1, h2, h3, bs, h4, h5, h6, h7⟩ := ih { s with ring := s.ring.pop pipeSize 0 }
          { c with b := (s.ring.base s.ring.start).toNat,
                   buffer := c.buffer ++ [s.ring.base s.ring.start], size := c.size + 1 }
          ⟨h.wf.pop 0, fun _ => h.event hne⟩
        refine ⟨h1, h2, h3, s.ring.base s.ring.start :: bs, ?_, ?_, ?_, fun _ => h7 hless⟩
        · rw [h4, append_assoc]
          rfl
        · rw [h5, length_cons]
          show c.size + 1 + bs.length = _
          omega
        · rw [hpop, cons_append]
          exact congrArg _ h6
      · rename_i heq
        rw [ne_eq, Decidable.not_not] at heq
        split
        · exact ⟨⟨h.wf, fun hne => absurd heq hne⟩, rfl, rfl, hstay⟩
        · exact ⟨h, rfl, rfl, hstay⟩
    · exact ⟨h, rfl, rfl, hstay⟩

theorem readSection_spec {c : ReadCall} (h : SharedOk s) (hsize : c.size = c.buffer.length)
    (hle : c.size ≤ c.requestedSize) :
    SharedOk (readSection s c).1 ∧ (readSection s c).2.requestedSize = c.requestedSize ∧
      (readSection s c).2.size = (readSection s c).2.buffer.length ∧
      (readSection s c).2.size ≤ c.requestedSize ∧
      (readSection s c).2.buffer = c.buffer ++ (readSection s c).2.buffer.drop c.size ∧
      s.ring.contents pipeSize = (readSection s c).2.buffer.drop c.size ++
        (readSection s c).1.ring.contents pipeSize := by
  obtain ⟨h1, h2, h3, bs, h4, h5, h6, h7⟩ := readLoop_spec 512 s c h
  have hdrop : (readLoop 512 s c).2.buffer.drop c.size = bs := by
    simp [h4, hsize]
  have hlen : (readLoop 512 s c).2.size = (readLoop 512 s c).2.buffer.length := by
    rw [h5, h4, length_append, hsize]
  have hbuf : (readLoop 512 s c).2.buffer =
      c.buffer ++ (readLoop 512 s c).2.buffer.drop c.size := by
    rwa [hdrop]
  have hcont : s.ring.contents pipeSize = (readLoop 512 s c).2.buffer.drop c.size ++
      (readLoop 512 s c).1.ring.contents pipeSize := by
    rw [hdrop]
    exact h6
  unfold readSection
  simp only
  split
  · split
    all_goals exact ⟨⟨h1.wf, fun _ => rfl⟩, h3, hlen, h7 hle, hbuf, hcont⟩
  · exact ⟨h1, h3, hlen, h7 hle, hbuf, hcont⟩

theorem writeLoop_spec : ∀ (left atomicity : Nat) (s : PipeSharedData) (c : WriteCall),
    s.ring.Wf pipeSize → c.size ≤ c.buffer.length →
    let r := writeLoop left atomicity s c
    r.2.1.ring.Wf pipeSize ∧ r.2.1.ring.start = s.ring.start ∧ r.2.1.event = s.event ∧
      r.2.2.buffer = c.buffer ∧ r.2.2.size ≤ c.buffer.length ∧
      r.1 + c.size = atomicity + r.2.2.size ∧ c.size ≤ r.2.2.size ∧
      r.2.1.ring.contents pipeSize =
        s.ring.contents pipeSize ++ (c.buffer.take r.2.2.size).drop c.size := by
  intro left
  induction left with
  | zero =>
    intro atomicity s c h hle
    refine ⟨h, rfl, rfl, rfl, hle, rfl, le_rfl, ?_⟩
    show s.ring.contents pipeSize = s.ring.contents pipeSize ++ (c.buffer.take c.size).drop c.size
    simp
  | succ left ih =>
    intro atomicity s c h hle
    have hstay : s.ring.contents pipeSize =
        s.ring.contents pipeSize ++ (c.buffer.take c.size).drop c.size := by
      rw [drop_take_self, append_nil]
    unfold writeLoop
    split
    · exact ⟨h, rfl, rfl, rfl, hle, rfl, le_rfl, hstay⟩
    rename_i x hx
    split
    · exact ⟨h, rfl, rfl, rfl, hle, rfl, le_rfl, hstay⟩
    rename_i hroom
    obtain ⟨hlt, hget⟩ := List.getElem?_eq_some_iff.mp hx
    obtain ⟨h1, h2, h3, h4, h5, h6, h7, h8⟩ :=
      ih (atomicity + 1) { s with ring := s.ring.push pipeSize x }
        { c with size := c.size + 1 } (h.push x) hlt
    dsimp only at h5 h6 h7
    refine ⟨h1, h2, h3, h4, h5, by omega, by omega, ?_⟩
    rw [h8]
    rw [Ring.contents_push h hroom, append_assoc]
    congr 1
    rw [drop_eq_getElem_cons (i := c.size) (by rw [length_take]; omega)]
    simp [hget]

/-- A section of a writer stores the bytes it reports; a small write is
stored whole or not at all. -/
theorem writeSection_spec {c : WriteCall} (h : SharedOk s) (hle : c.size ≤ c.buffer.length)
    (hsmall : c.buffer.length ≤ 512 → c.size = 0) :
    SharedOk (writeSection s c).1 ∧ (writeSection s c).2.buffer = c.buffer ∧
      c.size ≤ (writeSection s c).2.size ∧ (writeSection s c).2.size ≤ c.buffer.length ∧
      (writeSection s c).1.ring.contents pipeSize = s.ring.contents pipeSize ++
        (c.buffer.take (writeSection s c).2.size).drop c.size ∧
      (c.buffer.length ≤ 512 → (writeSection s c).2.result ≠ none ∧
        ((writeSection s c).2.size = 0 ∨ (writeSection s c).2.size = c.buffer.length)) := by
  have hnothing : s.ring.contents pipeSize =
      s.ring.contents pipeSize ++ (c.buffer.take c.size).drop c.size := by
    simp
  unfold writeSection
  split
  · exact ⟨h, rfl, le_rfl, hle, hnothing, fun hs => ⟨nofun, .inl (hsmall hs)⟩⟩
  obtain ⟨h1, h2, h3, h4, h5, h6, h7, h8⟩ := writeLoop_spec 512 0 s c h.wf hle
  obtain ⟨⟨atomicity, s', c'⟩, hr⟩ : ∃ r, r = writeLoop 512 0 s c := ⟨_, rfl⟩
  rw [← hr] at h1 h2 h3 h4 h5 h6 h7 h8 ⊢
  dsimp only at h1 h2 h3 h4 h5 h6 h7 h8 ⊢
  split
  · rename_i hback
    -- the write is too large for the room that is left
    have h0 : c.size = 0 := hsmall (by
      have hlen := hback.1
      rw [WriteCall.requestedSize, h4] at hlen
      exact hlen)
    have hring := Ring.contents_rollback h2 h8
    refine ⟨⟨⟨h1.start_lt, h.wf.stop_lt⟩, fun hne => ?_⟩, h4, le_of_eq h0,
      Nat.zero_le _, ?_, fun _ => ⟨nofun, .inl rfl⟩⟩
    · rw [h3]
      exact h.event (fun heq => hne (h2.trans heq))
    · simp [hring]
  · rename_i hkeep
    have hwhole : c.buffer.length ≤ 512 → c'.size = c.buffer.length := by
      intro hs
      rw [WriteCall.requestedSize, h4, not_and, Decidable.not_not] at hkeep
      omega
    unfold writeEnd
    by_cases hzero : atomicity = 0
    · -- nothing was stored
      simp only [hzero, ne_eq, not_true_eq_false, if_false, if_true]
      have hsame : c'.size = c.size := by omega
      have hcont : s'.ring.contents pipeSize = s.ring.contents pipeSize := by
        rw [h8, hsame]
        simp
      refine ⟨⟨h1, fun hne => ?_⟩, h4, h7, h5, h8, fun hs => ⟨nofun, .inr (hwhole hs)⟩⟩
      rw [h3]
      refine h.event fun heq => hne ?_
      rw [← Ring.contents_eq_nil h1, hcont]
      exact (Ring.contents_eq_nil h.wf).mpr heq
    · simp only [hzero, ne_eq, if_false]
      refine ⟨⟨h1, fun _ => rfl⟩, h4, h7, h5, h8, fun hs => ⟨?_, .inr (hwhole hs)⟩⟩
      rw [if_neg (by rw [WriteCall.requestedSize, h4, hwhole hs]; exact lt_irrefl _)]
      exact nofun

def bytesOf (id : Nat) (log : List (Nat × UInt8)) : List UInt8 :=
  (log.filter fun x => x.1 = id).map Prod.snd

theorem bytesOf_append (id : Nat) (l1 l2 : List (Nat × UInt8)) :
    bytesOf id (l1 ++ l2) = bytesOf id l1 ++ bytesOf id l2 := by
  simp [bytesOf]

@[simp] theorem bytesOf_self (id : Nat) (bs : List UInt8) : bytesOf id (bs.map (id, ·)) = bs := by
  induction bs with
  | nil => rfl
  | cons b bs ih => simpa [bytesOf] using ih

theorem bytesOf_other {id id' : Nat} (h : id' ≠ id) (bs : List UInt8) :
    bytesOf id (bs.map (id', ·)) = [] := by
  induction bs with
  | nil => rfl
  | cons b bs ih => simp [bytesOf, h]

theorem map_snd_tag (id : Nat) (bs : List UInt8) : (bs.map (id, ·)).map Prod.snd = bs := by
  rw [map_map]
  exact map_id bs

/-- The bytes of a call lie next to each other in a log, and only there. -/
def Together (id : Nat) (bytes : List UInt8) (log : List (Nat × UInt8)) : Prop :=
  ∃ before after, log = before ++ bytes.map (id, ·) ++ after ∧ bytesOf id before = [] ∧
    bytesOf id after = []

theorem Together.append {bytes : List UInt8} {log new : List (Nat × UInt8)}
    (h : Together id bytes log) (hnew : bytesOf id new = []) :
    Together id bytes (log ++ new) := by
  obtain ⟨before, after, rfl, h1, h2⟩ := h
  refine ⟨before, after ++ new, by simp, h1, ?_⟩
  rw [bytesOf_append, h2, hnew]
  rfl

/-! ## The invariant -/

/-- What was handed out and the ring make up what was accepted, call by call. -/
structure PipeInv (p : PipeState) : Prop where
  shared : SharedOk p.shared
  fifo : p.accepted.map Prod.snd = p.handed.map Prod.snd ++ p.shared.ring.contents pipeSize
  reads : ∀ id c, p.reads id = some c → bytesOf id p.handed = c.buffer ∧
    c.size = c.buffer.length ∧ c.size ≤ c.requestedSize
  unread : ∀ id, p.reads id = none → bytesOf id p.handed = []
  writes : ∀ id c, p.writes id = some c → bytesOf id p.accepted = c.buffer.take c.size ∧
    c.size ≤ c.buffer.length
  unwritten : ∀ id, p.writes id = none → bytesOf id p.accepted = []
  small : ∀ id c, p.writes id = some c → c.buffer.length ≤ 512 →
    c.size = 0 ∨ (c.result ≠ none ∧ c.size = c.buffer.length ∧ Together id c.buffer p.accepted)

theorem PipeInv.start : PipeInv PipeState.start where
  shared := ⟨⟨by decide, by decide⟩, fun h => absurd rfl h⟩
  fifo := rfl
  reads := fun _ _ h => by cases h
  unread := fun _ _ => rfl
  writes := fun _ _ h => by cases h
  unwritten := fun _ _ => rfl
  small := fun _ _ h => by cases h

section

variable (h : PipeInv p)
include h

theorem PipeInv.beginRead (hnone : p.reads id = none) (type : PipeType) (requestedSize : Nat) :
    PipeInv { p with
      reads := update p.reads id (some (nReadBegin type requestedSize)) } := by
  refine ⟨h.shared, h.fifo, fun id' c hc => ?_, fun id' hc => ?_, h.writes, h.unwritten, h.small⟩
  · by_cases hid : id' = id
    · subst hid
      obtain rfl : nReadBegin type requestedSize = c := by simpa using hc
      exact ⟨h.unread id' hnone, rfl, Nat.zero_le _⟩
    · exact h.reads id' c (by simpa [hid] using hc)
  · by_cases hid : id' = id
    · subst hid
      exact h.unread id' hnone
    · exact h.unread id' (by simpa [hid] using hc)

theorem PipeInv.beginWrite (hnone : p.writes id = none) (type : PipeType) (buffer : List UInt8) :
    PipeInv { p with
      writes := update p.writes id (some (nWriteBegin type buffer)) } := by
  refine ⟨h.shared, h.fifo, h.reads, h.unread, fun id' c hc => ?_, fun id' hc => ?_,
    fun id' c hc hlen => ?_⟩
  · by_cases hid : id' = id
    · subst hid
      obtain rfl : nWriteBegin type buffer = c := by simpa using hc
      refine ⟨?_, Nat.zero_le _⟩
      rw [h.unwritten id' hnone]
      rfl
    · exact h.writes id' c (by simpa [hid] using hc)
  · by_cases hid : id' = id
    · subst hid
      exact h.unwritten id' hnone
    · exact h.unwritten id' (by simpa [hid] using hc)
  · by_cases hid : id' = id
    · subst hid
      obtain rfl : nWriteBegin type buffer = c := by simpa using hc
      exact .inl rfl
    · exact h.small id' c (by simpa [hid] using hc) hlen

theorem PipeInv.readStep {c : ReadCall} (hc : p.reads id = some c) : PipeInv (p.readStep id c) := by
  obtain ⟨hbytes, hsize, hle⟩ := h.reads id c hc
  obtain ⟨h1, h2, h3, h4, h5, h6⟩ := readSection_spec h.shared hsize hle
  refine ⟨h1, ?_, fun id' c' hc' => ?_, fun id' hc' => ?_, h.writes, h.unwritten, h.small⟩
  · show p.accepted.map Prod.snd = (p.handed ++ _).map Prod.snd ++ _
    rw [map_append, map_snd_tag, append_assoc]
    exact h.fifo.trans (congrArg _ h6)
  · show bytesOf id' (p.handed ++ _) = _ ∧ _
    rw [bytesOf_append]
    by_cases hid : id' = id
    · subst hid
      obtain rfl : (readSection p.shared c).2 = c' := by simpa [PipeState.readStep] using hc'
      rw [bytesOf_self, hbytes, h2]
      exact ⟨h5.symm, h3, h4⟩
    · rw [bytesOf_other (Ne.symm hid), append_nil]
      exact h.reads id' c' (by simpa [PipeState.readStep, hid] using hc')
  · by_cases hid : id' = id
    · subst hid
      simp [PipeState.readStep] at hc'
    · show bytesOf id' (p.handed ++ _) = _
      rw [bytesOf_append, bytesOf_other (Ne.symm hid), append_nil]
      exact h.unread id' (by simpa [PipeState.readStep, hid] using hc')

theorem PipeInv.writeStep {c : WriteCall} (hc : p.writes id = some c) (hrun : c.result = none) :
    PipeInv (p.writeStep id c) := by
  obtain ⟨hbytes, hle⟩ := h.writes id c hc
  have hfirst : c.buffer.length ≤ 512 → c.size = 0 := by
    intro hlen
    rcases h.small id c hc hlen with h0 | ⟨hend, -⟩
    · exact h0
    · exact absurd hrun hend
  obtain ⟨h1, h2, h3, h4, h5, h6⟩ := writeSection_spec h.shared hle hfirst
  refine ⟨h1, ?_, h.reads, h.unread, fun id' c' hc' => ?_, fun id' hc' => ?_,
    fun id' c' hc' hlen => ?_⟩
  · show (p.accepted ++ _).map Prod.snd = p.handed.map Prod.snd ++ _
    rw [map_append, map_snd_tag, h.fifo, append_assoc]
    exact congrArg _ h5.symm
  · show bytesOf id' (p.accepted ++ _) = _ ∧ _
    rw [bytesOf_append]
    by_cases hid : id' = id
    · subst hid
      obtain rfl : (writeSection p.shared c).2 = c' := by simpa [PipeState.writeStep] using hc'
      rw [bytesOf_self, hbytes, h2]
      refine ⟨?_, h4⟩
      have hsplit := take_append_drop c.size (c.buffer.take (writeSection p.shared c).2.size)
      rw [take_take, min_eq_left h3] at hsplit
      exact hsplit
    · rw [bytesOf_other (Ne.symm hid), append_nil]
      exact h.writes id' c' (by simpa [PipeState.writeStep, hid] using hc')
  · by_cases hid : id' = id
    · subst hid
      simp [PipeState.writeStep] at hc'
    · show bytesOf id' (p.accepted ++ _) = _
      rw [bytesOf_append, bytesOf_other (Ne.symm hid), append_nil]
      exact h.unwritten id' (by simpa [PipeState.writeStep, hid] using hc')
  · by_cases hid : id' = id
    · subst hid
      obtain rfl : (writeSection p.shared c).2 = c' := by simpa [PipeState.writeStep] using hc'
      rw [h2] at hlen ⊢
      obtain ⟨hend, h0 | hwhole⟩ := h6 hlen
      · exact .inl h0
      · refine .inr ⟨hend, hwhole, p.accepted, [], ?_, ?_, rfl⟩
        · show p.accepted ++ _ = _
          simp [hwhole, hfirst hlen]
        · rw [hbytes, hfirst hlen, take_zero]
    · rcases h.small id' c' (by simpa [PipeState.writeStep, hid] using hc') hlen with
        h0 | ⟨hend, hwhole, htog⟩
      · exact .inl h0
      · exact .inr ⟨hend, hwhole, htog.append (bytesOf_other (Ne.symm hid) _)⟩

theorem PipeInv.step {p' : PipeState} {op : PipeOp} (hs : PipeStep p op p') : PipeInv p' := by
  cases hs with
  | beginRead id type requestedSize hnone => exact h.beginRead hnone type requestedSize
  | beginWrite id type buffer hnone => exact h.beginWrite hnone type buffer
  | readSection id c hc _ => exact h.readStep hc
  | writeSection id c hc hrun => exact h.writeStep hc hrun
  | release =>
    exact ⟨⟨h.shared.wf, fun _ => rfl⟩, h.fifo, h.reads, h.unread, h.writes, h.unwritten, h.small⟩

end

/-- The bytes come in order, and each call reports its own. -/
structure PipeOk (p : PipeState) : Prop where
  stream : p.handed.map Prod.snd <+: p.accepted.map Prod.snd
  rest : p.accepted.map Prod.snd = p.handed.map Prod.snd ++ p.shared.ring.contents pipeSize
  reads : ∀ id c, p.reads id = some c → c.buffer = bytesOf id p.handed ∧ c.size = c.buffer.length
  writes : ∀ id c, p.writes id = some c → bytesOf id p.accepted = c.buffer.take c.size ∧
    c.size ≤ c.buffer.length
  small : ∀ id c, p.writes id = some c → c.buffer.length ≤ 512 →
    bytesOf id p.accepted = [] ∨ Together id c.buffer p.accepted
  event : p.shared.ring.contents pipeSize ≠ [] → p.shared.event = true

/-- **The pipe stream**, for every interleaving of the sections. -/
theorem pipe_of_run {ops : List PipeOp} (hrun : Run PipeStep .start ops p) : PipeOk p := by
  have h : PipeInv p := hrun.invariant (fun _ _ _ h hs => h.step hs) .start
  refine ⟨⟨_, h.fifo.symm⟩, h.fifo, fun id c hc => ?_, h.writes, fun id c hc hlen => ?_,
    fun hne => ?_⟩
  · obtain ⟨h1, h2, -⟩ := h.reads id c hc
    exact ⟨h1.symm, h2⟩
  · rcases h.small id c hc hlen with h0 | ⟨-, -, htog⟩
    · rw [(h.writes id c hc).1, h0]
      exact .inl rfl
    · exact .inr htog
  · exact h.shared.event fun heq => hne ((Ring.contents_eq_nil h.shared.wf).mpr heq)

/-- A byte is written and read. -/
theorem pipe_of_run_read : ∃ p, Run PipeStep .start
    [.beginWrite 0 .write [7], .writeSection 0, .beginRead 1 .read 1, .readSection 1] p ∧
      p.handed = [(1, 7)] ∧ PipeOk p := by
  have hwrite := Run.snoc (.single (PipeStep.beginWrite .start 0 .write [7] rfl))
    (.writeSection _ 0 ⟨[7], 0, none⟩ rfl rfl)
  have hrun := (hwrite.snoc (.beginRead _ 1 .read 1 rfl)).snoc (.readSection _ 1 ⟨1, 0, [], 0, none⟩ rfl rfl)
  exact ⟨_, hrun, rfl, pipe_of_run hrun⟩

end Dancy.Pipe
