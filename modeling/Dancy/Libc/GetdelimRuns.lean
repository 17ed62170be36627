import Dancy.Lib.Bits
import Dancy.Libc.Getdelim
import Dancy.Libc.ReadRuns

/-!
# The records of a stream (`getdelim.c`)

The bytes of a stream up to a delimiter are a record. A call returns the next
one, if it is not too long and the allocations succeed. What is behind the last
delimiter is read and lost: the call returns `-1`.
-/

namespace Dancy.Libc.Getdelim

open List Option

variable {malloc : Nat → Option Lib.Bytes} {d : UInt8}

/-- The records that end with a delimiter, and what is behind the last of them. -/
def records (d : UInt8) : List UInt8 → List (List UInt8) × List UInt8
  | [] => ([], [])
  | c :: bs =>
    if c = d then ([c] :: (records d bs).1, (records d bs).2)
    else
      match (records d bs).1 with
      | [] => ([], c :: (records d bs).2)
      | r :: rs => ((c :: r) :: rs, (records d bs).2)

/-- The delimiter is at the end of the record and nowhere else. -/
def Terminated (d : UInt8) (r : List UInt8) : Prop := ∃ front, r = front ++ [d] ∧ d ∉ front

theorem records_spec (d : UInt8) : ∀ bs : List UInt8,
    bs = (records d bs).1.flatten ++ (records d bs).2 ∧
      (∀ r ∈ (records d bs).1, Terminated d r) ∧ d ∉ (records d bs).2 := by
  intro bs
  induction bs with
  | nil => exact ⟨rfl, fun r hr => absurd hr not_mem_nil, not_mem_nil⟩
  | cons c bs ih =>
    obtain ⟨hall, hrecs, htail⟩ := ih
    rw [records]
    by_cases hc : c = d
    · rw [if_pos hc]
      refine ⟨?_, fun r hr => ?_, htail⟩
      · rw [flatten_cons, append_assoc, ← hall]
        rfl
      · rcases mem_cons.mp hr with rfl | hr
        · exact ⟨[], by rw [hc]; rfl, not_mem_nil⟩
        · exact hrecs r hr
    · rw [if_neg hc]
      rcases hr : (records d bs).1 with _ | ⟨r, rs⟩
      · rw [hr] at hall
        refine ⟨congrArg (c :: ·) hall, fun r hr => absurd hr not_mem_nil, ?_⟩
        rw [mem_cons, not_or]
        exact ⟨Ne.symm hc, htail⟩
      rw [hr] at hall hrecs
      refine ⟨congrArg (c :: ·) hall, fun r' hr' => ?_, htail⟩
      rcases mem_cons.mp hr' with rfl | hr'
      · obtain ⟨front, rfl, hfront⟩ := hrecs r mem_cons_self
        refine ⟨c :: front, rfl, ?_⟩
        rw [mem_cons, not_or]
        exact ⟨Ne.symm hc, hfront⟩
      · exact hrecs r' (.tail _ hr')

/-- The allocations for the next `left` bytes of a line, and its last size. -/
def grown : (left i size : Nat) → Nat × Nat
  | 0, _, size => (0, size)
  | left + 1, i, size =>
    if i + 16 ≥ size then
      ((grown left (i + 1) (newSize size)).1 + 1, (grown left (i + 1) (newSize size)).2)
    else grown left (i + 1) size

/-- The records are not too long, and the allocations that they need succeed;
the next one is the `k`-th. -/
def Works (malloc : Nat → Option Lib.Bytes) : List (List UInt8) → (size k : Nat) → Prop
  | [], _, _ => True
  | r :: rs, size, k =>
    r.length ≤ lineLimit ∧ (∀ j < (grown r.length 0 size).1, malloc (k + j) ≠ none) ∧
      Works malloc rs (grown r.length 0 size).2 (k + (grown r.length 0 size).1)

/-! ## One byte -/

variable {s : Stream Tape} {size k k' : Nat} {line : Line} {p : LinePtr} {delimiter : Int}

theorem fgetc_byte {c : UInt8} {l : List Item} (h : ahead s = .byte c :: l) :
    ∃ s', fgetc tapeCalls s = (some c, s') ∧ ahead s' = l := by
  have hr := fgetc_reads s
  have hpulls : pulls 1 (ahead s) = ([c], none, l) := by
    rw [h]
    rfl
  have hbytes := hr.bytes
  have hrest := hr.rest
  rw [hpulls] at hbytes hrest
  rcases hf : fgetc tapeCalls s with ⟨_ | b, s'⟩
  · rw [hf] at hbytes
    cases hbytes
  · rw [hf] at hbytes hrest
    cases hbytes
    exact ⟨s', rfl, hrest⟩

theorem fgetc_stop {e : Stop} (h : (pull (ahead s)).1 = .error e) :
    ∃ s', fgetc tapeCalls s = (none, s') := by
  have hr := (fgetc_reads s).bytes
  have hpulls : (pulls 1 (ahead s)).1 = [] := by
    rcases hp : pull (ahead s) with ⟨_ | _, l⟩
    · rw [pulls, hp]
    · rw [hp] at h
      cases h
  rw [hpulls] at hr
  rcases hf : fgetc tapeCalls s with ⟨_ | b, s'⟩
  · simp
  · rw [hf] at hr
    cases hr

theorem newSize_eq (h : size < 2 ^ 28) : newSize size = (size + 4096) / 4096 * 4096 :=
  Lib.and_high_bits (n := 32) (k := 12) (by decide) (by omega)

/-- The block of a line in front of its `i`-th byte. -/
structure LineOk (line : Line) (i : Nat) : Prop where
  size : line.size ≤ line.block.length
  room : i = 0 ∨ i + 16 ≤ line.size

structure Roomy (line : Line) (i size : Nat) (front : List UInt8) : Prop where
  eq : line.size = size
  block : size ≤ line.block.length
  room : i + 16 < size
  front : line.block.take i = front

/-- Room is made, with an allocation that succeeds or without one. -/
structure MadeRoom (malloc : Nat → Option Lib.Bytes) (line : Line) (i k : Nat) (line' : Line)
    (a size : Nat) : Prop where
  made : makeRoom malloc line i k = some (some line', k + a)
  roomy : Roomy line' i size (line.block.take i)
  grown : ∀ left, grown (left + 1) i line.size
    = ((Getdelim.grown left (i + 1) size).1 + a, (Getdelim.grown left (i + 1) size).2)
  succeeds : ∀ j < a, malloc (k + j) ≠ none

theorem makeRoom_spec {i : Nat} (h : LineOk line i) (hi : i < lineLimit) (k : Nat) :
    (line.size ≤ i + 16 ∧ malloc k = none ∧ makeRoom malloc line i k = some (none, k + 1)) ∨
      ∃ line' a size, MadeRoom malloc line i k line' a size := by
  have hlim : lineLimit = 0x10000000 - 16 := rfl
  by_cases hsize : line.size ≤ i + 16
  · rcases hm : malloc k with _ | bytes
    · refine .inl ⟨hsize, rfl, ?_⟩
      rw [makeRoom, if_pos hsize, hm]
    have hnew := @newSize_eq line.size (by omega)
    have hroom := h.room
    have hblock := h.size
    have hlt : i + 16 < newSize line.size ∧ line.size < newSize line.size := by omega
    refine .inr ⟨⟨line.block.take line.size ++
        (newBlock bytes (newSize line.size)).drop line.size, newSize line.size, false, line.leave⟩,
      1, newSize line.size, ?_, ⟨rfl, ?_, hlt.1, ?_⟩, fun left => ?_, fun j hj => ?_⟩
    · rw [makeRoom, if_pos hsize, hm]
      dsimp only
      rw [growLine, if_neg (by omega)]
      rfl
    · simp only [newBlock, length_append, length_take, length_drop, length_map, length_range]
      omega
    · rw [take_append_of_le_length (by rw [length_take]; omega), take_take,
        min_eq_left (by omega)]
    · rw [Getdelim.grown, if_pos hsize]
    · obtain rfl : j = 0 := by omega
      rw [add_zero, hm]
      simp
  · refine .inr ⟨line, 0, line.size, ?_, ⟨rfl, h.size, by omega, rfl⟩, fun left => ?_,
      fun j hj => absurd hj (Nat.not_lt_zero j)⟩
    · rw [makeRoom, if_neg hsize]
      rfl
    · rw [Getdelim.grown, if_neg hsize]
      rfl

theorem storeByte_spec {i : Nat} {front : List UInt8} (h : Roomy line i size front) (c : UInt8) :
    ∃ line', storeByte line i c = some line' ∧ LineOk line' (i + 1) ∧ line'.size = size ∧
      line'.block.take (i + 1) = front ++ [c] ∧ i + 1 < line'.block.length ∧
      line'.block[i + 1]? = some 0 := by
  have hroom := h.room
  have hblock := h.block
  have hsize := h.eq
  have hlt : i + 1 < line.block.length := by omega
  refine ⟨_, if_pos hlt, ⟨?_, .inr ?_⟩, hsize, ?_, ?_, ?_⟩
  · simp only [length_set]
    omega
  · dsimp only
    omega
  · have hi : i < line.block.length := by omega
    rw [take_set_of_le le_rfl, take_succ_eq_append_getElem (by simpa using hi),
      take_set_of_le le_rfl, h.front]
    simp
  · simpa using hlt
  · simp [hlt]

/-- The next `n` bytes of a line can be stored; there are `left` up to the limit. -/
structure CanStore (malloc : Nat → Option Lib.Bytes) (n left i size k : Nat) : Prop where
  le : n ≤ left
  succeeds : ∀ j < (grown n i size).1, malloc (k + j) ≠ none

/-- The bytes of a line, and the state behind them. -/
structure Stored (bytes : List UInt8) (i : Nat) (line : Line) (k : Nat) (rest : List Item)
    (got : Got Line Tape) : Prop where
  r : got.r = some (i + bytes.length)
  size : got.line.size = (grown bytes.length i line.size).2
  block : got.line.size ≤ got.line.block.length
  front : got.line.block.take (i + bytes.length) = line.block.take i ++ bytes
  room : i + bytes.length < got.line.size
  zero : got.line.block[i + bytes.length]? = some 0
  mallocs : got.mallocs = k + (grown bytes.length i line.size).1
  rest : ahead got.stream = rest

theorem lineLoop_tail {e : List Item} {stop : Stop} (he : (pull e).1 = .error stop) :
    ∀ {bs : List UInt8} {left i : Nat} {line : Line} {s : Stream Tape} {k : Nat},
      LineOk line i → i + left = lineLimit → d ∉ bs → ahead s = Item.bytes bs ++ e →
      ∃ got, lineLoop malloc tapeCalls d left i line s k = some got ∧ got.r = none := by
  intro bs left
  induction left generalizing bs with
  | zero => exact fun _ _ _ _ => ⟨_, rfl, rfl⟩
  | succ left ih =>
    intro i line s k hline hleft hd hs
    rw [lineLoop]
    rcases @makeRoom_spec malloc _ _ hline (by omega) k with
      ⟨-, -, hroom⟩ | ⟨line', a, size, hmade⟩
    · rw [hroom]
      simp
    rw [hmade.made]
    cases bs with
    | nil =>
      obtain ⟨s', hf⟩ := fgetc_stop (e := stop) (by rw [hs]; exact he)
      rw [hf]
      exact ⟨_, rfl, rfl⟩
    | cons c bs =>
      rw [mem_cons, not_or] at hd
      obtain ⟨s', hf, hs'⟩ := fgetc_byte (c := c) hs
      obtain ⟨line'', hstore, hline'', -⟩ := storeByte_spec hmade.roomy c
      rw [hf]
      dsimp only
      rw [hstore]
      dsimp only
      rw [if_neg (Ne.symm hd.1)]
      exact ih hline'' (by omega) hd.2 hs'

theorem succeeds_add {a g : Nat} (ha : ∀ j < a, malloc (k + j) ≠ none) :
    (∀ j < g + a, malloc (k + j) ≠ none) ↔ ∀ j < g, malloc (k + a + j) ≠ none := by
  constructor
  · intro h j hj
    rw [add_assoc]
    exact h (a + j) (by omega)
  intro h j hj
  by_cases hlt : j < a
  · exact ha j hlt
  · obtain ⟨i, rfl⟩ := Nat.exists_eq_add_of_le (not_lt.mp hlt)
    rw [← add_assoc]
    exact h i (by omega)

/-- **One record.** It is stored when it is not too long and the allocations
succeed; otherwise the call returns `-1`. -/
theorem lineLoop_record {rest : List Item} : ∀ {front : List UInt8} {left i : Nat} {line : Line}
    {s : Stream Tape} {k : Nat}, LineOk line i → i + left = lineLimit → d ∉ front →
      ahead s = Item.bytes (front ++ [d]) ++ rest →
      ∃ got, lineLoop malloc tapeCalls d left i line s k = some got ∧
        (CanStore malloc (front ++ [d]).length left i line.size k →
          Stored (front ++ [d]) i line k rest got) ∧
        (¬CanStore malloc (front ++ [d]).length left i line.size k → got.r = none) := by
  intro front left
  induction left generalizing front with
  | zero => exact fun _ _ _ _ => ⟨_, rfl, fun h => absurd h.le (by simp), fun _ => rfl⟩
  | succ left ih =>
    intro i line s k hline hleft hd hs
    rw [lineLoop]
    rcases @makeRoom_spec malloc _ _ hline (by omega) k with
      ⟨hle, hnone, hroom⟩ | ⟨line', a, size, hmade⟩
    · rw [hroom]
      refine ⟨_, rfl, fun h => absurd hnone (h.succeeds 0 ?_), fun _ => rfl⟩
      simp [grown, hle]
    rw [hmade.made]
    cases front with
    | nil =>
      obtain ⟨s', hf, hs'⟩ := fgetc_byte (c := d) hs
      obtain ⟨line'', hstore, hline'', hsize, hfront, hlen, hzero⟩ :=
        storeByte_spec hmade.roomy d
      rw [hf]
      dsimp only
      rw [hstore]
      dsimp only
      rw [if_pos rfl]
      have hgrown : grown ([] ++ [d]).length i line.size = (a, size) :=
        (hmade.grown 0).trans (by simp [grown])
      refine ⟨_, rfl, fun _ => ⟨rfl, ?_, hline''.size, hfront, ?_, hzero, ?_, hs'⟩,
        fun h => absurd ⟨?_, ?_⟩ h⟩
      · rw [hgrown, hsize]
      · have := hmade.roomy.room
        rw [hsize, length_append]
        simp only [length_nil, length_singleton]
        omega
      · rw [hgrown]
      · simp
      · rw [hgrown]
        exact hmade.succeeds
    | cons c front =>
      rw [mem_cons, not_or] at hd
      obtain ⟨s', hf, hs'⟩ := fgetc_byte (s := s)
        (l := Item.bytes (front ++ [d]) ++ rest) hs
      obtain ⟨line'', hstore, hline'', hsize, hfront, -⟩ := storeByte_spec hmade.roomy c
      rw [hf]
      dsimp only
      rw [hstore]
      dsimp only
      rw [if_neg (Ne.symm hd.1)]
      obtain ⟨got, hgot, hstored, hfails⟩ := @ih _ _ _ _ (k + a) hline''
        (by omega) hd.2 hs'
      rw [hsize] at hstored hfails
      have hlen : (c :: front ++ [d]).length = (front ++ [d]).length + 1 := rfl
      have hgrown := hmade.grown (front ++ [d]).length
      have hiff : CanStore malloc (c :: front ++ [d]).length (left + 1) i line.size k ↔
          CanStore malloc (front ++ [d]).length left (i + 1) size (k + a) := by
        constructor
        · intro h
          have hle := h.le
          refine ⟨Nat.le_of_succ_le_succ hle, ?_⟩
          have hsucc := h.succeeds
          rw [hlen, hgrown] at hsucc
          exact (succeeds_add hmade.succeeds).mp hsucc
        · intro h
          refine ⟨Nat.succ_le_succ h.le, ?_⟩
          rw [hlen, hgrown]
          exact (succeeds_add hmade.succeeds).mpr h.succeeds
      rw [hiff]
      refine ⟨got, hgot, fun h => ?_, hfails⟩
      obtain ⟨hr, hsz, hblock, hfr, hroom, hzero, hm, hrest⟩ := hstored h
      have hadd : i + (c :: front ++ [d]).length = i + 1 + (front ++ [d]).length := by
        omega
      refine ⟨by rw [hr, hadd], ?_, hblock, ?_, by rw [hadd]; exact hroom,
        by rw [hadd]; exact hzero, ?_, hrest⟩
      · rw [hsz, hlen, hgrown, hsize]
      · rw [hadd, hfr, hfront, append_assoc]
        rfl
      · rw [hm, hlen, hgrown, hsize]
        omega

/-! ## One call -/

/-- What a caller promises: `*n` is no more than the size of its block. -/
def LinePtr.Ok (p : LinePtr) : Prop := ∀ block, p.line = some block → p.n ≤ block.length

def delimiterByte (delimiter : Int) : UInt8 := UInt8.ofNat (delimiter % 256).toNat

theorem newBlock_length (bytes : Lib.Bytes) (size : Nat) : (newBlock bytes size).length = size := by
  simp [newBlock]

theorem defaultLine_spec {caller : Option (List UInt8)}
    (h : defaultLine malloc caller k = (some line, k')) :
    0 < line.size ∧ line.size ≤ line.block.length := by
  rw [defaultLine] at h
  split at h
  · cases h
  · cases h
    exact ⟨Nat.succ_pos 127, le_of_eq (newBlock_length _ _).symm⟩

theorem firstLine_spec (hp : p.Ok) (h : firstLine malloc p k = (some line, k')) :
    0 < line.size ∧ line.size ≤ line.block.length := by
  rw [firstLine] at h
  split at h
  · rename_i block hblock
    split at h
    · exact defaultLine_spec h
    · cases h
      exact ⟨Nat.pos_of_ne_zero ‹_›, hp block hblock⟩
  split at h
  · exact defaultLine_spec h
  · split at h
    · exact defaultLine_spec h
    · cases h
      exact ⟨Nat.pos_of_ne_zero ‹_›, le_of_eq (newBlock_length _ _).symm⟩

theorem lineOk_zero (h : line.size ≤ line.block.length) :
    LineOk { line with block := line.block.set 0 0 } 0 :=
  ⟨by simpa using h, .inl rfl⟩

theorem getdelim_eq (hp : p.Ok) (h : firstLine malloc p k = (some line, k')) {got : Got Line Tape}
    (hgot : lineLoop malloc tapeCalls (delimiterByte delimiter) lineLimit 0 { line with block := line.block.set 0 0 } s k' = some got) :
    (got.r = none → ∃ got', getdelim malloc tapeCalls p delimiter s k = some got' ∧
      got'.r = none) ∧
    ∀ r, got.r = some r → getdelim malloc tapeCalls p delimiter s k
      = some ⟨some r, ⟨some got.line.block, got.line.size⟩, got.stream, got.mallocs⟩ := by
  obtain ⟨hpos, hle⟩ := firstLine_spec hp h
  rw [delimiterByte] at hgot
  rw [getdelim, h]
  dsimp only
  rw [if_neg (by omega), hgot]
  dsimp only
  refine ⟨fun hr => ?_, fun r hr => ?_⟩
  · rw [hr]
    simp
  · rw [hr]

theorem getdelim_noMemory (h : firstLine malloc p k = (none, k')) :
    getdelim malloc tapeCalls p delimiter s k = some ⟨none, p, s, k'⟩ := by
  rw [getdelim, h]

/-! ## Calls until the end -/

def record (r : Returned) : List UInt8 := r.block.take r.length

/-- There is room for the bytes and the zero behind them. -/
structure Fits (r : Returned) : Prop where
  length_lt : r.length < r.size
  size_le : r.size ≤ r.block.length
  zero : r.block[r.length]? = some 0

/-- The records are short enough, and the allocations succeed, from a call on. -/
def WorksFrom (malloc : Nat → Option Lib.Bytes) (p : LinePtr) (k : Nat)
    (recs : List (List UInt8)) : Prop :=
  recs = [] ∨ ∃ line k', firstLine malloc p k = (some line, k') ∧ Works malloc recs line.size k'

theorem works_cons {r : List UInt8} {rs : List (List UInt8)} :
    Works malloc (r :: rs) size k ↔ CanStore malloc r.length lineLimit 0 size k ∧
      Works malloc rs (grown r.length 0 size).2 (k + (grown r.length 0 size).1) :=
  ⟨fun h => ⟨⟨h.1, h.2.1⟩, h.2.2⟩, fun h => ⟨h.1.le, h.1.succeeds, h.2⟩⟩

theorem worksFrom_again {block : List UInt8} (hsize : 0 < size) {recs : List (List UInt8)} :
    WorksFrom malloc ⟨some block, size⟩ k recs ↔ Works malloc recs size k := by
  have hfirst : firstLine malloc ⟨some block, size⟩ k = (some ⟨block, size, true, none⟩, k) := by
    exact if_neg (ne_of_gt hsize)
  constructor
  · rintro (rfl | ⟨line, k', h, hw⟩)
    · trivial
    · rw [hfirst] at h
      cases h
      exact hw
  · exact fun h => .inr ⟨_, _, hfirst, h⟩

/-- **The calls.** Each one returns the next record, up to the first record
that is too long, or needs an allocation that fails. -/
theorem getdelims_spec {e : List Item} {stop : Stop} (he : (pull e).1 = .error stop)
    {tail : List UInt8} (htail : delimiterByte delimiter ∉ tail) :
    ∀ {recs : List (List UInt8)} {p : LinePtr} {s : Stream Tape} {k : Nat},
      (∀ r ∈ recs, Terminated (delimiterByte delimiter) r) → p.Ok →
      ahead s = Item.bytes (recs.flatten ++ tail) ++ e →
      ∃ calls rs, getdelims malloc tapeCalls delimiter calls p s k = some rs ∧
        rs.map record <+: recs ∧ (∀ r ∈ rs, Fits r) ∧
        (rs.map record = recs ↔ WorksFrom malloc p k recs) := by
  intro recs
  induction recs with
  | nil =>
    intro p s k _ hp hs
    have hend : ∃ got, getdelim malloc tapeCalls p delimiter s k = some got ∧ got.r = none := by
      rcases hf : firstLine malloc p k with ⟨_ | line, k'⟩
      · exact ⟨_, getdelim_noMemory hf, rfl⟩
      · obtain ⟨got, hgot, hr⟩ := @lineLoop_tail malloc _ _ _ he _ lineLimit _ _ _ k'
          (lineOk_zero (firstLine_spec hp hf).2) (zero_add _) htail hs
        exact (getdelim_eq hp hf hgot).1 hr
    obtain ⟨got, hgot, hr⟩ := hend
    refine ⟨1, [], ?_, prefix_rfl, fun r hr => absurd hr not_mem_nil,
      fun _ => .inl rfl, fun _ => rfl⟩
    rw [getdelims, hgot]
    dsimp only
    rw [hr]
  | cons r recs ih =>
    intro p s k hrecs hp hs
    obtain ⟨front, rfl, hfront⟩ := hrecs r mem_cons_self
    have hs' : ahead s = Item.bytes (front ++ [delimiterByte delimiter]) ++
        (Item.bytes (recs.flatten ++ tail) ++ e) := by
      rw [hs]
      simp [Item.bytes]
    -- the call returns the record, or it is the last one
    have hlast : ¬WorksFrom malloc p k ((front ++ [delimiterByte delimiter]) :: recs) →
        (∃ got, getdelim malloc tapeCalls p delimiter s k = some got ∧ got.r = none) →
        ∃ calls rs, getdelims malloc tapeCalls delimiter calls p s k = some rs ∧
          rs.map record <+: (front ++ [delimiterByte delimiter]) :: recs ∧
          (∀ r ∈ rs, Fits r) ∧
          (rs.map record = (front ++ [delimiterByte delimiter]) :: recs ↔
            WorksFrom malloc p k ((front ++ [delimiterByte delimiter]) :: recs)) := by
      rintro hnot ⟨got, hgot, hr⟩
      refine ⟨1, [], ?_, nil_prefix, fun r hr => absurd hr not_mem_nil,
        fun h => (by cases h), fun h => absurd h hnot⟩
      rw [getdelims, hgot]
      dsimp only
      rw [hr]
    rcases hf : firstLine malloc p k with ⟨_ | line, k'⟩
    · refine hlast ?_ ⟨_, getdelim_noMemory hf, rfl⟩
      rintro (h | ⟨line, k'', h, -⟩)
      · cases h
      · rw [hf] at h
        cases h
    obtain ⟨hpos, hle⟩ := firstLine_spec hp hf
    obtain ⟨got, hgot, hstored, hfails⟩ := @lineLoop_record malloc _ _ _ lineLimit _ _ _ k'
      (lineOk_zero hle) (zero_add _) hfront hs'
    have hworks : WorksFrom malloc p k ((front ++ [delimiterByte delimiter]) :: recs) ↔
        Works malloc ((front ++ [delimiterByte delimiter]) :: recs) line.size k' := by
      constructor
      · rintro (h | ⟨line', k'', h, hw⟩)
        · cases h
        · rw [hf] at h
          cases h
          exact hw
      · exact fun h => .inr ⟨line, k', hf, h⟩
    by_cases hcan : CanStore malloc (front ++ [delimiterByte delimiter]).length lineLimit 0
        line.size k'
    · obtain ⟨hr, hsize, hblock, hfr, hroom, hzero, hmallocs, hrest⟩ := hstored hcan
      rw [zero_add] at hr hfr hroom hzero
      have hcall := (getdelim_eq hp hf hgot).2 _ hr
      have hp' : (LinePtr.mk (some got.line.block) got.line.size).Ok := by
        intro block hb
        cases hb
        exact hblock
      obtain ⟨calls, rs, hcalls, hprefix, hfits, hiff⟩ := ih
        (fun r hr => hrecs r (.tail _ hr)) hp' hrest
      have hrecord : record ⟨(front ++ [delimiterByte delimiter]).length, got.line.block,
          got.line.size⟩ = front ++ [delimiterByte delimiter] := hfr
      refine ⟨calls + 1, ⟨(front ++ [delimiterByte delimiter]).length, got.line.block,
        got.line.size⟩ :: rs, ?_, ?_, ?_, ?_⟩
      · rw [getdelims, hcall]
        dsimp only
        rw [hcalls]
        rfl
      · rw [map_cons, hrecord]
        exact cons_prefix_cons.mpr ⟨rfl, hprefix⟩
      · intro r hr
        rcases mem_cons.mp hr with rfl | hr
        · exact ⟨hroom, hblock, hzero⟩
        · exact hfits r hr
      · rw [map_cons, hrecord, hworks, works_cons, cons.injEq, hiff,
          worksFrom_again (Nat.zero_lt_of_lt hroom), hsize, hmallocs]
        exact ⟨fun h => ⟨hcan, h.2⟩, fun h => ⟨rfl, h.2⟩⟩
    · refine hlast (fun h => hcan ?_) ((getdelim_eq hp hf hgot).1 (hfails hcan))
      exact (works_cons.mp (hworks.mp h)).1

theorem getdelims_unique : ∀ {m n : Nat} {p : LinePtr} {s : Stream Tape}
    {k : Nat} {rs rs' : List Returned}, getdelims malloc tapeCalls delimiter m p s k = some rs →
      getdelims malloc tapeCalls delimiter n p s k = some rs' → rs = rs' := by
  intro m
  induction m with
  | zero => exact fun h => by cases h
  | succ m ih =>
    intro n p s k rs rs' h h'
    cases n with
    | zero => cases h'
    | succ n =>
      rw [getdelims] at h h'
      rcases hg : getdelim malloc tapeCalls p delimiter s k with _ | got
      · rw [hg] at h
        cases h
      rw [hg] at h h'
      dsimp only at h h'
      rcases hr : got.r with _ | r
      · rw [hr] at h h'
        cases h
        cases h'
        rfl
      · rw [hr] at h h'
        obtain ⟨ts, hts, rfl⟩ := map_eq_some_iff.mp h
        obtain ⟨ts', hts', rfl⟩ := map_eq_some_iff.mp h'
        rw [ih hts hts']

/-- The records are the bytes of the stream; each of them ends at the first
delimiter, or at the end of the stream, and fits into its block. -/
structure Splits (d : UInt8) (content : List UInt8) (rs : List Returned) : Prop where
  all : (rs.map record).flatten = content
  ends : ∀ front r back, rs = front ++ r :: back →
    Terminated d (record r) ∨ back = [] ∧ d ∉ record r
  fits : ∀ r ∈ rs, Fits r

/-- **The last record needs its delimiter.** The records that are returned are
the whole stream exactly if nothing is behind the last delimiter, the records
are short enough and the allocations succeed. -/
theorem getdelims_splits_iff {p : LinePtr} {delimiter : Int} {s : Stream Tape} {k : Nat}
    {content : List UInt8} {e : List Item} {stop : Stop} (hp : p.Ok)
    (hs : ahead s = Item.bytes content ++ e) (he : (pull e).1 = .error stop) :
    (∃ calls rs, getdelims malloc tapeCalls delimiter calls p s k = some rs ∧
        Splits (delimiterByte delimiter) content rs) ↔
      (records (delimiterByte delimiter) content).2 = [] ∧
        WorksFrom malloc p k (records (delimiterByte delimiter) content).1 := by
  obtain ⟨hall, hrecs, htail⟩ := records_spec (delimiterByte delimiter) content
  obtain ⟨recs, hrecs'⟩ : ∃ recs, recs = (records (delimiterByte delimiter) content).1 := ⟨_, rfl⟩
  obtain ⟨tail, htail'⟩ : ∃ tail, tail = (records (delimiterByte delimiter) content).2 := ⟨_, rfl⟩
  rw [← hrecs', ← htail'] at hall ⊢
  rw [← hrecs'] at hrecs
  rw [← htail'] at htail
  rw [hall] at hs
  obtain ⟨calls, rs, hcalls, ⟨more, hmore⟩, hfits, hiff⟩ :=
    @getdelims_spec malloc _ _ _ he _ htail _ _ _ k hrecs hp hs
  constructor
  · rintro ⟨calls', rs', hcalls', hsplits⟩
    rw [getdelims_unique hcalls' hcalls] at hsplits
    -- nothing is missing at the end
    have hrest : more.flatten ++ tail = [] := by
      have h := hsplits.all
      rw [hall, ← hmore, flatten_append, append_assoc] at h
      exact append_right_eq_self.mp h.symm
    obtain ⟨hflat, hnil⟩ := append_eq_nil_iff.mp hrest
    have hmore' : more = [] := by
      cases more with
      | nil => rfl
      | cons r more =>
        obtain ⟨front, hr, -⟩ := hrecs r (by rw [← hmore]; simp)
        rw [hr] at hflat
        simp at hflat
    rw [hmore', append_nil] at hmore
    exact ⟨hnil, hiff.mp hmore⟩
  · rintro ⟨hnil, hworks⟩
    have hmap := hiff.mpr hworks
    refine ⟨calls, rs, hcalls, ?_, fun front r back hr => .inl ?_, hfits⟩
    · rw [hmap, hall, hnil, append_nil]
    · refine hrecs _ ?_
      rw [← hmap, hr]
      simp

def letters (bytes : List UInt8) : Stream Tape where
  fd := [some bytes]
  error := false
  eof := false
  ungetc := none
  mode := .O_RDONLY
  buffering := .IONBF
  written := false
  bufferStart := 0
  bufferEnd := 0
  buffer := []

theorem getdelims_line :
    ∃ calls rs, getdelims (fun _ => some fun _ => 0) tapeCalls 10 calls ⟨none, 0⟩ (letters [97, 10]) 0
        = some rs ∧ Splits (delimiterByte 10) [97, 10] rs := by
  refine (@getdelims_splits_iff _ _ _ _ _ _ [] .eof (fun _ h => by cases h) rfl rfl).mpr
    ⟨by decide, .inr ⟨_, _, rfl, ?_⟩⟩
  exact ⟨by decide, fun j hj => absurd hj (Nat.not_lt_zero j), trivial⟩

/-- A letter at the end of the stream is lost. -/
theorem last_letter_lost : ¬∃ calls rs,
    getdelims (fun _ => some fun _ => 0) tapeCalls 10 calls ⟨none, 0⟩ (letters [97]) 0 = some rs ∧
      Splits (delimiterByte 10) [97] rs := by
  rintro ⟨calls, rs, hcalls, hsplits⟩
  obtain ⟨calls', rs', hcalls', hprefix, -⟩ := @getdelims_spec (fun _ => some fun _ => 0) 10 []
    .eof rfl [97] (by decide) [] ⟨none, 0⟩ (letters [97]) 0 (fun r hr => absurd hr not_mem_nil)
    (fun _ h => by cases h) rfl
  rw [getdelims_unique hcalls hcalls'] at hsplits
  have h := hsplits.all
  rw [prefix_nil.mp hprefix] at h
  cases h

end Dancy.Libc.Getdelim
