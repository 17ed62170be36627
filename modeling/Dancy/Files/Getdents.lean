import Dancy.Files.Table
import Dancy.Lib.Bytes
import Dancy.Lib.Run

/-!
# Reading directories (`file_getdents` of `syscall/file.c`)

A call gets names from `n_readdir` of the node, one offset after the other,
and puts them behind a table of pointers into the buffer of the caller. The
offset goes back to the file table entry only when the call succeeds.
-/

namespace Dancy.Files

open List Function Option

open Dancy.Lib (Bytes Run)

/-! ## The code -/

/-- The bytes of a string of C in front of its null character. -/
structure CString where
  bytes : List UInt8
  no_nul : 0 ∉ bytes

/-- An answer of `n_readdir`: `0` with a name, or one of the codes. -/
inductive ReaddirReply where
  | name (s : CString)
  | placeholder
  | mediaChanged
  | error (r : Nat)

/-- `n_readdir` of a node: the answer to the `k`-th call, at an offset. -/
abbrev Readdir := Option Node → (k offset : Nat) → ReaddirReply

inductive GetdentsCode where
  | unsupported
  | buffer
  | argument
  | node (r : Nat)

def ullongMax : Nat := 2 ^ 64 - 1

/-- The variables of the loop of `file_getdents`: the offset, the number of
calls of `n_readdir`, the place of the next name, the pointers and the
buffer. -/
structure Listing where
  (offset k p : Nat)
  pp : List Nat
  mem : Bytes

/-- The loop over the bytes of a name; `none` stands for `DE_BUFFER`. -/
def copyName (e : Nat) : List UInt8 → Nat → Bytes → Option (Nat × Bytes)
  | [], p, mem => some (p, mem)
  | c :: cs, p, mem =>
    if p < e then copyName e cs (p + 1) (update mem p c) else none

/-- The loop of `file_getdents` over the requested entries. -/
def getdentsLoop (readdir : (k offset : Nat) → ReaddirReply) (e : Nat) :
    Nat → Listing → Except GetdentsCode Unit × Listing
  | 0, l => (.ok (), l)
  | left + 1, l =>
    if 0xFFFFFFFF < l.offset then (.ok (), l)
    else
      let next := { l with offset := l.offset + 1, k := l.k + 1 }
      match readdir l.k l.offset with
      | .mediaChanged => (.ok (), { next with offset := ullongMax })
      | .placeholder => getdentsLoop readdir e left next
      | .error r => (.error (.node r), next)
      | .name s =>
        if s.bytes = [] then (.ok (), { next with offset := ullongMax })
        else
          match copyName e (s.bytes ++ [0]) l.p l.mem with
          | none => (.error .buffer, next)
          | some (p, mem) =>
            getdentsLoop readdir e left
              { next with p := p, mem := mem, pp := l.pp ++ [l.p] }

/-- The arguments of `file_getdents`, and the task that calls it. -/
structure DentsCall where
  task : Nat
  fd : Int
  size : Nat
  (count flags : Int)

/-- `requested_count` -/
def DentsCall.requested (c : DentsCall) : Nat := min c.count.toNat 0xFFFF

/-- The place of the first name, behind the table of pointers. -/
def DentsCall.base (c : DentsCall) : Nat := (c.requested + 1) * 8

/-- `file_getdents`, with `k` calls of `n_readdir` before it: what it leaves
in the buffer of the caller, the new state and the number of calls. After an
error the buffer is zero and `*count` too. -/
def fileGetdents (readdir : Readdir) (s : FileState) (k : Nat) (c : DentsCall) :
    Except GetdentsCode Listing × FileState × Nat :=
  if c.count < 0 ∨ c.flags ≠ 0 then (.error .unsupported, s, k)
  else if c.size < c.base then (.error .buffer, s, k)
  else
    match s.slot c.task c.fd with
    | none => (.error .argument, s, k)
    | some v =>
      let e := s.fileTable v.fte
      match getdentsLoop (readdir e.node) c.size c.requested
          ⟨e.offset, k, c.base, [], fun _ => 0⟩ with
      | (.ok (), l) => (.ok l, s.setEntry v.fte { e with offset := l.offset }, l.k)
      | (.error r, l) => (.error r, s, l.k)

/-! ## Directories -/

/-- What a directory has at each offset: a name, the empty name at its end,
or a placeholder. -/
abbrev Directory := Nat → Option CString

/-- Why a call of `n_readdir` does not answer with what the directory has. -/
inductive Fault where
  | error (r : Nat)
  | mediaChanged

/-- `n_readdir` of directories whose `k`-th call may fail. -/
def readdirOf (dirs : Option Node → Directory) (faults : Nat → Option Fault) : Readdir :=
  fun node k offset =>
    match faults k with
    | some (.error r) => .error r
    | some .mediaChanged => .mediaChanged
    | none =>
      match dirs node offset with
      | none => .placeholder
      | some s => .name s

def EndsAt (d : Directory) (offset : Nat) : Prop := ∃ s, d offset = some s ∧ s.bytes = []

/-- The names of `n` offsets from `i` on, in the order of the offsets. -/
def namesFrom (d : Directory) (i n : Nat) : List (List UInt8) :=
  (range' i n).filterMap fun o => (d o).map CString.bytes

theorem namesFrom_succ (d : Directory) (i n : Nat) :
    namesFrom d i (n + 1) = ((d i).map CString.bytes).toList ++ namesFrom d (i + 1) n := by
  rw [namesFrom, range'_succ, filterMap_cons, namesFrom]
  cases d i <;> rfl

theorem namesFrom_add (d : Directory) (i m n : Nat) :
    namesFrom d i (m + n) = namesFrom d i m ++ namesFrom d (i + m) n := by
  simp [namesFrom, ← filterMap_append]

/-- A whole string with its null character stands at `p`. -/
def StringAt (mem : Bytes) (p : Nat) (s : List UInt8) : Prop :=
  (∀ j (h : j < s.length), mem (p + j) = s[j]) ∧ mem (p + s.length) = 0

/-- The pointers lead to the strings, which stand between `base` and `l.p`. -/
def Holds (base : Nat) (l : Listing) (records : List (List UInt8)) : Prop :=
  List.Forall₂ (fun p s => base ≤ p ∧ p + s.length < l.p ∧ StringAt l.mem p s) l.pp records

theorem copyName_spec {e : Nat} {cs : List UInt8} : ∀ {p p' : Nat} {mem mem' : Bytes},
    p ≤ e → copyName e cs p mem = some (p', mem') →
      p' = p + cs.length ∧ p' ≤ e ∧ (∀ j (h : j < cs.length), mem' (p + j) = cs[j]) ∧
        ∀ x < p, mem' x = mem x := by
  induction cs with
  | nil =>
    intro p p' mem mem' hp h
    obtain ⟨rfl, rfl⟩ := Prod.mk.inj (some.inj h)
    exact ⟨rfl, hp, fun j hj => absurd hj (Nat.not_lt_zero j), fun x _ => rfl⟩
  | cons c cs ih =>
    intro p p' mem mem' _ h
    rw [copyName] at h
    split at h
    · next hp =>
        obtain ⟨hlen, hle, hbytes, hsame⟩ := ih hp h
        refine ⟨by rw [hlen, length_cons]; omega, hle, ?_, ?_⟩
        · intro j hj
          cases j with
          | zero =>
            rw [add_zero, hsame p (by omega), update_self]
            rfl
          | succ j =>
            rw [show p + (j + 1) = p + 1 + j by omega]
            exact hbytes j (Nat.lt_of_succ_lt_succ hj)
        · intro x hx
          rw [hsame x (by omega), update_of_ne (by omega)]
    · cases h

variable {l : Listing} {faults : Nat → Option Fault}

theorem Holds.snoc {base e p : Nat} {records : List (List UInt8)} {mem : Bytes} {s : List UInt8}
    {offset k : Nat} (h : Holds base l records) (hbase : base ≤ l.p) (hp : l.p ≤ e)
    (hcopy : copyName e (s ++ [0]) l.p l.mem = some (p, mem)) :
    Holds base ⟨offset, k, p, l.pp ++ [l.p], mem⟩ (records ++ [s]) ∧ base ≤ p ∧ p ≤ e := by
  obtain ⟨hlen, hle, hbytes, hsame⟩ := copyName_spec hp hcopy
  rw [length_append, length_singleton] at hlen
  refine ⟨rel_append (h.imp ?_) (.cons ⟨hbase, by dsimp only; omega, ?_, ?_⟩ .nil), by omega, hle⟩
  · rintro q t ⟨hq, hend, hstr, hnul⟩
    refine ⟨hq, by dsimp only; omega, fun j hj => ?_, ?_⟩
    · rw [← hstr j hj]
      exact hsame _ (by omega)
    · rw [← hnul]
      exact hsame _ hend
  · intro j hj
    have hj' : j < (s ++ [0]).length := by
      rw [length_append]
      omega
    have hbyte := hbytes j hj'
    rw [getElem_append_left hj] at hbyte
    exact hbyte
  · have hj' : s.length < (s ++ [0]).length := by simp
    have hnul := hbytes s.length hj'
    simpa using hnul

/-! ## One call -/

/-- No offset of this range is the end of the directory. -/
def NoEnd (d : Directory) (i n : Nat) : Prop := ∀ o, i ≤ o → o < i + n → ¬ EndsAt d o

theorem NoEnd.append {d : Directory} {i n m : Nat} (h : NoEnd d i n) (h' : NoEnd d (i + n) m) :
    NoEnd d i (n + m) := by
  intro o h1 h2
  by_cases hfirst : o < i + n
  · exact h o h1 hfirst
  · exact h' o (by omega) (by omega)

/-- The listing stops at this offset: the directory has its end there, or
`n_readdir` said that the media has changed. -/
def StopsAt (d : Directory) (faults : Nat → Option Fault) (offset : Nat) : Prop :=
  EndsAt d offset ∨ ∃ k, faults k = some .mediaChanged

/-- The names of the `m` offsets that were passed are in the buffer; these are all `left`
that were requested, or the end has been reached. -/
def Passed (d : Directory) (faults : Nat → Option Fault) (base e left : Nat) (l l' : Listing)
    (records : List (List UInt8)) : Prop :=
  ∃ m ≤ left, l.offset + m ≤ 2 ^ 32 ∧ NoEnd d l.offset m ∧
    Holds base l' (records ++ namesFrom d l.offset m) ∧ l'.p ≤ e ∧
    ((l'.offset = l.offset + m ∧ (m = left ∨ l.offset + m = 2 ^ 32)) ∨
      (l'.offset = ullongMax ∧ l.offset + m < 2 ^ 32 ∧ StopsAt d faults (l.offset + m)))

theorem getdentsLoop_ok {dirs : Option Node → Directory} {node : Option Node} {e base : Nat}
    (left : Nat) :
    ∀ {l l' : Listing} {records : List (List UInt8)}, Holds base l records → base ≤ l.p →
      l.p ≤ e → l.offset ≤ 2 ^ 32 →
      getdentsLoop (readdirOf dirs faults node) e left l = (.ok (), l') →
      Passed (dirs node) faults base e left l l' records := by
  induction left with
  | zero =>
    intro l l' records hholds _ hp hoff h
    obtain rfl := (Prod.mk.inj h).2
    refine ⟨0, le_refl 0, hoff, fun o h1 h2 => absurd h1 (by omega), ?_, hp,
      .inl ⟨rfl, .inl rfl⟩⟩
    simpa [namesFrom] using hholds
  | succ left ih =>
    intro l l' records hholds hbase hp hoff h
    rw [getdentsLoop] at h
    by_cases hbig : 0xFFFFFFFF < l.offset
    · rw [if_pos hbig] at h
      obtain rfl := (Prod.mk.inj h).2
      refine ⟨0, Nat.zero_le _, hoff, fun o h1 h2 => absurd h1 (by omega), ?_, hp,
        .inl ⟨rfl, .inr (by omega)⟩⟩
      simpa [namesFrom] using hholds
    rw [if_neg hbig] at h
    -- the end at this offset: nothing is added
    have stop : StopsAt (dirs node) faults l.offset →
        ⟨ullongMax, l.k + 1, l.p, l.pp, l.mem⟩ = l' →
        Passed (dirs node) faults base e (left + 1) l l' records := by
      rintro hstop rfl
      refine ⟨0, Nat.zero_le _, by omega, fun o h1 h2 => absurd h1 (by omega), ?_, hp,
        .inr ⟨rfl, by omega, hstop⟩⟩
      rwa [show namesFrom (dirs node) l.offset 0 = [] from rfl, append_nil]
    -- an offset that was passed, with the name it added
    have pass : ∀ {l1 : Listing} {new : List (List UInt8)}, Holds base l1 (records ++ new) →
        base ≤ l1.p → l1.p ≤ e → l1.offset = l.offset + 1 → ¬ EndsAt (dirs node) l.offset →
        ((dirs node l.offset).map CString.bytes).toList = new →
        getdentsLoop (readdirOf dirs faults node) e left l1 = (.ok (), l') →
        Passed (dirs node) faults base e (left + 1) l l' records := by
      rintro l1 new h1 h1base h1p h1off hend rfl hloop
      obtain ⟨m, hm, hle, hno, hrec, hp', hcase⟩ := ih h1 h1base h1p (by omega) hloop
      rw [h1off] at hle hno hrec hcase
      refine ⟨m + 1, by omega, by omega, ?_, ?_, hp', ?_⟩
      · intro o ho ho'
        by_cases hfirst : o = l.offset
        · rw [hfirst]
          exact hend
        · exact hno o (by omega) (by omega)
      · rwa [namesFrom_succ, ← append_assoc]
      · rw [show l.offset + (m + 1) = l.offset + 1 + m by omega]
        rcases hcase with ⟨ho, hm'⟩ | hstop
        · exact .inl ⟨ho, by omega⟩
        · exact .inr hstop
    rcases hfault : faults l.k with _ | (r | _)
    · rcases hdir : dirs node l.offset with _ | s
      · have hreply : readdirOf dirs faults node l.k l.offset = .placeholder := by
          simp [readdirOf, hfault, hdir]
        rw [hreply] at h
        have hsame : Holds base ⟨l.offset + 1, l.k + 1, l.p, l.pp, l.mem⟩ (records ++ []) := by
          rwa [append_nil]
        refine pass hsame hbase hp rfl ?_ (by rw [hdir]; rfl) h
        rintro ⟨s, hs, -⟩
        rw [hdir] at hs
        cases hs
      · have hreply : readdirOf dirs faults node l.k l.offset = .name s := by
          simp [readdirOf, hfault, hdir]
        rw [hreply] at h
        dsimp only at h
        by_cases hempty : s.bytes = []
        · rw [if_pos hempty] at h
          exact stop (.inl ⟨s, hdir, hempty⟩) (Prod.mk.inj h).2
        rw [if_neg hempty] at h
        rcases hcopy : copyName e (s.bytes ++ [0]) l.p l.mem with _ | ⟨p, mem⟩
        · rw [hcopy] at h
          cases (Prod.mk.inj h).1
        rw [hcopy] at h
        obtain ⟨hnew, hbase', hp'⟩ := hholds.snoc hbase hp hcopy
        refine pass hnew hbase' hp' rfl ?_ (by rw [hdir]; rfl) h
        rintro ⟨t, ht, hnil⟩
        rw [hdir] at ht
        obtain rfl := some.inj ht
        exact hempty hnil
    · have hreply : readdirOf dirs faults node l.k l.offset = .error r := by
        simp [readdirOf, hfault]
      rw [hreply] at h
      cases (Prod.mk.inj h).1
    · have hreply : readdirOf dirs faults node l.k l.offset = .mediaChanged := by
        simp [readdirOf, hfault]
      rw [hreply] at h
      exact stop (.inr ⟨l.k, hfault⟩) (Prod.mk.inj h).2

theorem getdentsLoop_ended {readdir : (k offset : Nat) → ReaddirReply} {e left : Nat}
    (h : 0xFFFFFFFF < l.offset) : getdentsLoop readdir e left l = (.ok (), l) := by
  cases left with
  | zero => rfl
  | succ left => rw [getdentsLoop, if_pos h]

/-- The bytes from `p` to the first null character, at most `fuel`. -/
def readString (mem : Bytes) : (fuel p : Nat) → List UInt8
  | 0, _ => []
  | fuel + 1, p => if mem p = 0 then [] else mem p :: readString mem fuel (p + 1)

/-- The records of a call, as the caller reads them from the buffer. -/
def Listing.records (l : Listing) (size : Nat) : List (List UInt8) :=
  l.pp.map fun p => readString l.mem size p

theorem readString_eq {mem : Bytes} {s : List UInt8} : ∀ {fuel p : Nat}, StringAt mem p s →
    0 ∉ s → s.length < fuel → readString mem fuel p = s := by
  induction s with
  | nil =>
    intro fuel p h _ hfuel
    obtain ⟨fuel, rfl⟩ : ∃ n, fuel = n + 1 := ⟨fuel - 1, by omega⟩
    rw [readString, if_pos (show mem p = 0 from h.2)]
  | cons c s ih =>
    intro fuel p h hnul hfuel
    obtain ⟨fuel, rfl⟩ : ∃ n, fuel = n + 1 := ⟨fuel - 1, by omega⟩
    have hc : mem p = c := h.1 0 (Nat.succ_pos _)
    have hne : mem p ≠ 0 := fun h0 => hnul (mem_cons.mpr (.inl (by rw [← hc, h0])))
    rw [readString, if_neg hne, hc]
    refine congrArg (c :: ·) (ih ⟨fun j hj => ?_, ?_⟩ ?_ ?_)
    · rw [show p + 1 + j = p + (j + 1) by omega]
      exact h.1 (j + 1) (Nat.succ_lt_succ hj)
    · rw [show p + 1 + s.length = p + (c :: s).length by rw [length_cons]; omega]
      exact h.2
    · exact fun h0 => hnul (.tail c h0)
    · rw [length_cons] at hfuel
      omega

theorem namesFrom_no_nul {d : Directory} {i n : Nat} : ∀ t ∈ namesFrom d i n, 0 ∉ t := by
  intro t ht
  obtain ⟨o, -, ho⟩ := mem_filterMap.mp ht
  obtain ⟨s, -, rfl⟩ := Option.map_eq_some_iff.mp ho
  exact s.no_nul

theorem Holds.records_eq {base size : Nat} {records : List (List UInt8)} (h : Holds base l records)
    (hp : l.p ≤ size) (hnul : ∀ t ∈ records, 0 ∉ t) : l.records size = records := by
  rw [Listing.records]
  rw [Holds] at h
  generalize l.pp = pp at h
  induction h with
  | nil => rfl
  | cons hhead _ ih =>
    obtain ⟨_, hend, hstr⟩ := hhead
    rw [map_cons, ih fun t ht => hnul t (.tail _ ht),
      readString_eq hstr (hnul _ mem_cons_self) (by omega)]

/-- What a successful call delivers from the offset `o` on. -/
structure Delivers (d : Directory) (faults : Nat → Option Fault) (c : DentsCall) (o : Nat)
    (l : Listing) : Prop where
  /-- The records are whole names, inside of the buffer and behind the table. -/
  whole : Holds c.base l (l.records c.size) ∧ l.p ≤ c.size
  names : ∃ m ≤ c.requested, NoEnd d o m ∧ l.records c.size = namesFrom d o m ∧
    ((l.offset = o + m ∧ o + m ≤ 2 ^ 32 ∧ (m = c.requested ∨ o + m = 2 ^ 32)) ∨
      (l.offset = ullongMax ∧ o + m < 2 ^ 32 ∧ StopsAt d faults (o + m)) ∨
      (l.offset = o ∧ 2 ^ 32 ≤ o ∧ m = 0))

section
variable {dirs : Option Node → Directory} {faults : Nat → Option Fault}

theorem fileGetdents_spec (dirs : Option Node → Directory) (faults : Nat → Option Fault)
    (s : FileState) (k : Nat) (c : DentsCall) :
    (∃ r k', fileGetdents (readdirOf dirs faults) s k c = (.error r, s, k')) ∨
      ∃ l v, s.slot c.task c.fd = some v ∧ fileGetdents (readdirOf dirs faults) s k c =
          (.ok l, s.setEntry v.fte { s.fileTable v.fte with offset := l.offset }, l.k) ∧
        Delivers (dirs (s.fileTable v.fte).node) faults c (s.fileTable v.fte).offset l := by
  rw [fileGetdents]
  by_cases hargs : c.count < 0 ∨ c.flags ≠ 0
  · rw [if_pos hargs]
    simp
  rw [if_neg hargs]
  by_cases hsize : c.size < c.base
  · rw [if_pos hsize]
    exact .inl ⟨_, _, rfl⟩
  rw [if_neg hsize]
  rcases hslot : s.slot c.task c.fd with _ | v
  · exact .inl ⟨_, _, rfl⟩
  dsimp only
  rcases hloop : getdentsLoop (readdirOf dirs faults (s.fileTable v.fte).node) c.size c.requested
    ⟨(s.fileTable v.fte).offset, k, c.base, [], fun _ => 0⟩ with ⟨_ | ⟨⟨⟩⟩, l⟩
  · exact .inl ⟨_, _, rfl⟩
  refine .inr ⟨l, v, rfl, rfl, ?_⟩
  have hstart : Holds c.base
      ⟨(s.fileTable v.fte).offset, k, c.base, [], fun _ => 0⟩ [] := .nil
  by_cases hended : 0xFFFFFFFF < (s.fileTable v.fte).offset
  · rw [getdentsLoop_ended hended] at hloop
    obtain rfl := (Prod.mk.inj hloop).2
    refine ⟨⟨.nil, by dsimp only; omega⟩, 0, Nat.zero_le _, ?_, rfl, ?_⟩
    · exact fun o h1 h2 => absurd h1 (by omega)
    · exact .inr (.inr ⟨rfl, by omega, rfl⟩)
  obtain ⟨m, hm, hle, hno, hholds, hp, hcase⟩ := getdentsLoop_ok c.requested hstart
    le_rfl (Nat.le_of_not_lt hsize) (by dsimp only; omega) hloop
  have hrecords := hholds.records_eq hp namesFrom_no_nul
  refine ⟨⟨hrecords ▸ hholds, hp⟩, m, hm, hno, hrecords, ?_⟩
  rcases hcase with ⟨ho, hend⟩ | hstop
  · exact .inl ⟨ho, hle, hend⟩
  · exact .inr (.inl hstop)

end

/-! ## Runs -/

/-- The file table, the number of calls of `n_readdir`, and for each entry the
records that calls have delivered from it; no call reads these. -/
structure DentsState where
  files : FileState
  k : Nat
  log : Nat → List (List UInt8)

def DentsState.step (dirs : Option Node → Directory) (faults : Nat → Option Fault)
    (s : DentsState) (c : DentsCall) : DentsState :=
  match fileGetdents (readdirOf dirs faults) s.files s.k c, s.files.slot c.task c.fd with
  | (.ok l, files, k), some v =>
    ⟨files, k, update s.log v.fte (s.log v.fte ++ l.records c.size)⟩
  | (_, files, k), _ => ⟨files, k, s.log⟩

/-- The records that came from an entry are the names in front of an offset,
which is the stored one as long as the listing has not come to its end. -/
def Listed (d : Directory) (faults : Nat → Option Fault) (offset : Nat)
    (log : List (List UInt8)) : Prop :=
  ∃ n ≤ 2 ^ 32, NoEnd d 0 n ∧ log = namesFrom d 0 n ∧
    (offset = n ∨ (offset = ullongMax ∧ n < 2 ^ 32 ∧ StopsAt d faults n))

theorem Listed.delivers {d : Directory} {c : DentsCall} {offset : Nat} {log : List (List UInt8)}
    (h : Listed d faults offset log) (hd : Delivers d faults c offset l) :
    Listed d faults l.offset (log ++ l.records c.size) := by
  obtain ⟨n, hn, hno, rfl, hoff⟩ := h
  obtain ⟨m, hm, hno', hrecords, hcase⟩ := hd.names
  rw [hrecords]
  rcases hcase with ⟨ho, hle, -⟩ | ⟨ho, hlt, hstop⟩ | ⟨ho, hbig, rfl⟩
  · obtain rfl : offset = n := hoff.resolve_right fun hend => by
      have : ullongMax ≤ 2 ^ 32 := by omega
      exact absurd this (by decide)
    refine ⟨offset + m, hle, hno.append (by rwa [zero_add]), ?_, .inl ho⟩
    rw [namesFrom_add, zero_add]
  · obtain rfl : offset = n := hoff.resolve_right fun hend => by
      have : ullongMax ≤ 2 ^ 32 := by omega
      exact absurd this (by decide)
    refine ⟨offset + m, by omega, hno.append (by rwa [zero_add]), ?_, .inr ⟨ho, hlt, hstop⟩⟩
    rw [namesFrom_add, zero_add]
  · refine ⟨n, hn, hno, ?_, ho ▸ hoff⟩
    rw [show namesFrom d offset 0 = [] from rfl, append_nil]

def EntryListed (dirs : Option Node → Directory) (faults : Nat → Option Fault)
    (node : Option Node) (i : Nat) (s : DentsState) : Prop :=
  (s.files.fileTable i).node = node ∧
    Listed (dirs node) faults (s.files.fileTable i).offset (s.log i)

theorem EntryListed.step {dirs : Option Node → Directory} {node : Option Node} {i : Nat}
    {s : DentsState} (h : EntryListed dirs faults node i s) (c : DentsCall) :
    EntryListed dirs faults node i (s.step dirs faults c) := by
  rw [DentsState.step]
  rcases fileGetdents_spec dirs faults s.files s.k c with ⟨r, k', heq⟩ | ⟨l, v, hslot, heq, hd⟩
  · rwa [heq]
  rw [heq, hslot]
  by_cases hi : i = v.fte
  · subst hi
    obtain ⟨rfl, hlisted⟩ := h
    refine ⟨?_, ?_⟩
    · simp [FileState.setEntry]
    · simp only [FileState.setEntry, update_self]
      exact hlisted.delivers hd
  · simpa [EntryListed, FileState.setEntry, update_of_ne hi] using h

/-- What one call does: when it fails the file table is the same, when it
succeeds it delivers whole records from the stored offset on, and the new
offset is stored. -/
def CallFaithful (dirs : Option Node → Directory) (faults : Nat → Option Fault)
    (s : DentsState) (c : DentsCall) : Prop :=
  match fileGetdents (readdirOf dirs faults) s.files s.k c with
  | (.error _, files, _) => files = s.files ∧ (s.step dirs faults c).log = s.log
  | (.ok l, files, _) => ∃ v, s.files.slot c.task c.fd = some v ∧
      Delivers (dirs (s.files.fileTable v.fte).node) faults c (s.files.fileTable v.fte).offset l ∧
      (files.fileTable v.fte).offset = l.offset ∧
      ∀ i ≠ v.fte, files.fileTable i = s.files.fileTable i

theorem callFaithful (dirs : Option Node → Directory) (faults : Nat → Option Fault)
    (s : DentsState) (c : DentsCall) : CallFaithful dirs faults s c := by
  rw [CallFaithful, DentsState.step]
  rcases fileGetdents_spec dirs faults s.files s.k c with ⟨r, k', heq⟩ | ⟨l, v, hslot, heq, hd⟩
  · rw [heq]
    simp
  · rw [heq]
    refine ⟨v, hslot, hd, by simp [FileState.setEntry], fun i hi => ?_⟩
    simp [FileState.setEntry, update_of_ne hi]

/-- In every sequence of calls the records that the successful ones deliver
from an entry are the names of its directory from the first offset on, each
once and in order; at the end of the listing they are all of them, unless
the media has changed. Every call delivers whole records, or fails and leaves
the stored offsets as they are. -/
theorem getdents_lists {dirs : Option Node → Directory} {faults : Nat → Option Fault}
    {s s' : DentsState} {calls : List DentsCall}
    (hrun : Run (fun s c s' => s' = DentsState.step dirs faults s c) s calls s') {i : Nat}
    (hoffset : (s.files.fileTable i).offset = 0) (hlog : s.log i = []) :
    Listed (dirs (s.files.fileTable i).node) faults (s'.files.fileTable i).offset (s'.log i) ∧
      ((∀ k, faults k ≠ some .mediaChanged) → 0xFFFFFFFF < (s'.files.fileTable i).offset →
        ∃ n ≤ 2 ^ 32, (EndsAt (dirs (s.files.fileTable i).node) n ∨ n = 2 ^ 32) ∧
          NoEnd (dirs (s.files.fileTable i).node) 0 n ∧
          s'.log i = namesFrom (dirs (s.files.fileTable i).node) 0 n) ∧
      ∀ c, CallFaithful dirs faults s' c := by
  have hstart : EntryListed dirs faults (s.files.fileTable i).node i s :=
    ⟨rfl, 0, Nat.zero_le _, fun o _ h => absurd h (by omega), by rw [hlog]; rfl, .inl hoffset⟩
  have hend : EntryListed dirs faults (s.files.fileTable i).node i s' :=
    hrun.invariant (fun t c t' ht hstep => hstep ▸ ht.step c) hstart
  refine ⟨hend.2, fun hmedia hbig => ?_, callFaithful dirs faults s'⟩
  obtain ⟨n, hn, hno, hnames, hoff⟩ := hend.2
  refine ⟨n, hn, ?_, hno, hnames⟩
  rcases hoff with hoff | ⟨-, -, hstop | ⟨k, hk⟩⟩
  · exact .inr (by omega)
  · exact .inl hstop
  · exact absurd hk (hmedia k)

/-- A directory with two names and a placeholder between them. -/
def dotDirectory : Directory := fun o =>
  if o = 0 then some ⟨[46], by decide⟩
  else if o = 1 then none
  else if o = 2 then some ⟨[46, 46], by decide⟩
  else some ⟨[], by decide⟩

/-- The descriptor `0` of every task leads to the entry `0`, which is open. -/
def dotState : DentsState where
  files :=
    { fileTable := fun _ => ⟨false, 1, 0, 0, some ⟨0, vfsTypeDirectory⟩⟩
      live := []
      fd := fun _ => ⟨1, fun _ => some ⟨0, false⟩⟩
      opened := []
      released := [] }
  k := 0
  log := fun _ => []

/-- The second call fails: its buffer is too small for the name. -/
def dotCalls : List DentsCall :=
  [⟨0, 0, 64, 2, 0⟩, ⟨0, 0, 26, 2, 0⟩, ⟨0, 0, 64, 4, 0⟩]

example : (dotCalls.foldl (DentsState.step (fun _ => dotDirectory) fun _ => none) dotState).log 0 =
    [[46], [46, 46]] := by decide +kernel

theorem getdents_lists_dot : Listed dotDirectory (fun _ => none)
    ((dotCalls.foldl (DentsState.step (fun _ => dotDirectory) fun _ => none)
      dotState).files.fileTable 0).offset
    ((dotCalls.foldl (DentsState.step (fun _ => dotDirectory) fun _ => none) dotState).log 0) :=
  (getdents_lists (i := 0) (Run.foldl (DentsState.step (fun _ => dotDirectory) fun _ => none)
    dotCalls dotState) rfl rfl).1

end Dancy.Files
