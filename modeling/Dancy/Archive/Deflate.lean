import Dancy.Lib.Bits

/-!
# Bit arrays and `deflate` (`bitarray.c`, `deflate.c`)

The same structure is read and written. A reader stands for the bits that
are still ahead of it (`input`), a writer for those behind it (`output`).
The callback is the default one, which gives no more data.
-/

namespace Dancy.Zip

open Dancy.Lib List

/-- `struct bitarray`; `data` is an index in `mem`. -/
structure BitArray where
  mem : List UInt8
  (data size state0 state1 written : Nat)

def bitarrayInit (mem : List UInt8) : BitArray := ⟨mem, 0, mem.length, 0, 0, 0⟩

/-- `bitarray_clear`; nothing is accessed through the null pointer, as the
size is zero. -/
def bitarrayClear (b : BitArray) : BitArray := { b with data := 0, size := 0, state0 := 0, state1 := 0 }

/-- One bit, after a byte is loaded if there is none left. -/
def nextBit (b : BitArray) : Option Bool × BitArray :=
  if b.state0 ≠ 0 then
    (some (b.state1 % 2 = 1), { b with state0 := b.state0 - 1, state1 := b.state1 / 2 })
  else if b.size ≠ 0 then
    let c := (b.mem.getD b.data 0).toNat
    (some (c % 2 = 1),
      { b with data := b.data + 1, size := b.size - 1, state0 := 7, state1 := c / 2 })
  else (none, bitarrayClear b)

def fetchLoop : Nat → Nat → Nat → BitArray → Option Nat × BitArray
  | 0, _, ret, b => (some (ret &&& 0x7FFFFFFF), b)
  | n + 1, bit, ret, b =>
    match nextBit b with
    | (some x, b) => fetchLoop n (bit + 1) (ret ||| (x.toNat <<< bit)) b
    | (none, b) => (none, b)

/-- `bitarray_fetch`; `none` is `-1`. -/
def bitarrayFetch (b : BitArray) (bits : Nat) : Option Nat × BitArray := fetchLoop bits 0 0 b

/-- One bit is written; `false` is for no room. -/
def shoveBit (b : BitArray) (x : Nat) : Bool × BitArray :=
  let state1 := b.state1 ||| (x <<< b.state0)
  if b.state0 + 1 < 8 then (true, { b with state0 := b.state0 + 1, state1 := state1 })
  else if b.size = 0 then (false, bitarrayClear b)
  else (true,
    { mem := b.mem.set b.data (UInt8.ofNat state1)
      data := b.data + 1
      size := b.size - 1
      state0 := 0
      state1 := 0
      written := b.written + 1 })

/-- `bitarray_shove`; `false` is `-1`. -/
def bitarrayShove : BitArray → Nat → Nat → Bool × BitArray
  | b, 0, _ => (true, b)
  | b, bits + 1, val =>
    match shoveBit b (val &&& 1) with
    | (true, b) => bitarrayShove b bits (val >>> 1)
    | (false, b) => (false, b)

def bitarrayWritten (b : BitArray) : Bool × Nat × BitArray :=
  let (ok, b) := bitarrayShove b (if b.state0 ≠ 0 then 8 - b.state0 else 0) 0
  (ok, b.written, b)

variable {b b' : BitArray}

def BitArray.input (b : BitArray) : List Bool :=
  bitsOf b.state0 b.state1 ++ bitsOfBytes ((b.mem.drop b.data).take b.size)

def Reading (b : BitArray) : Prop := b.data + b.size ≤ b.mem.length

theorem bitarrayInit_input (mem : List UInt8) :
    Reading (bitarrayInit mem) ∧ (bitarrayInit mem).input = bitsOfBytes mem :=
  ⟨by simp [Reading, bitarrayInit], by simp [BitArray.input, bitarrayInit, bitsOf]⟩

theorem nextBit_cons (h : Reading b) {x : Bool} {r : List Bool} (hin : b.input = x :: r) :
    ∃ b', nextBit b = (some x, b') ∧ Reading b' ∧ b'.input = r := by
  unfold nextBit
  by_cases h0 : b.state0 = 0
  · rw [if_neg (not_not_intro h0)]
    by_cases hsize : b.size = 0
    · simp [BitArray.input, h0, hsize, bitsOf] at hin
    have hlt : b.data < b.mem.length := by
      unfold Reading at h
      omega
    obtain ⟨n, hn⟩ : ∃ n, b.size = n + 1 := ⟨b.size - 1, by omega⟩
    have hbytes : (b.mem.drop b.data).take b.size =
        b.mem.getD b.data 0 :: (b.mem.drop (b.data + 1)).take n := by
      rw [drop_eq_getElem_cons hlt, hn, take_succ_cons]
      simp [hlt]
    rw [BitArray.input, h0, bitsOf, nil_append, hbytes, bitsOfBytes_cons, bitsOf,
      cons_append] at hin
    obtain ⟨hx, hr⟩ := cons.inj hin
    rw [if_pos hsize]
    refine ⟨_, Prod.ext (congrArg some hx) rfl, ?_, ?_⟩
    · simp only [Reading] at h ⊢
      omega
    · simp only [hn]
      exact hr
  · obtain ⟨n, hn⟩ : ∃ n, b.state0 = n + 1 := ⟨b.state0 - 1, by omega⟩
    rw [BitArray.input, hn, bitsOf, cons_append] at hin
    obtain ⟨hx, hr⟩ := cons.inj hin
    rw [if_pos h0]
    refine ⟨_, Prod.ext (congrArg some hx) rfl, h, ?_⟩
    simp only [hn]
    exact hr

theorem fetchLoop_eq (xs : List Bool) : ∀ {b : BitArray} (bit ret : Nat) {r : List Bool},
    Reading b → b.input = xs ++ r → ret < 2 ^ bit →
      ∃ b', fetchLoop xs.length bit ret b = (some ((ret + 2 ^ bit * natOf xs) &&& 0x7FFFFFFF), b') ∧
        Reading b' ∧ b'.input = r := by
  induction xs with
  | nil =>
    intro b bit ret r h hin _
    refine ⟨b, ?_, h, hin⟩
    rfl
  | cons x xs ih =>
    intro b bit ret r h hin hret
    obtain ⟨b1, hbit, h1, hin1⟩ := nextBit_cons h hin
    have hor : ret ||| (x.toNat <<< bit) = ret + 2 ^ bit * x.toNat := by
      rw [Nat.or_comm, ← Nat.shiftLeft_add_eq_or_of_lt hret, Nat.shiftLeft_eq]
      ring
    have hlt : ret + 2 ^ bit * x.toNat < 2 ^ (bit + 1) := by
      have hle := Nat.mul_le_mul_left (2 ^ bit) (Bool.toNat_le x)
      omega
    obtain ⟨b2, hloop, h2, hin2⟩ := ih (bit + 1) _ h1 hin1 hlt
    refine ⟨b2, ?_, h2, hin2⟩
    rw [length_cons, fetchLoop, hbit]
    simp only
    rw [hor, hloop, natOf, pow_succ]
    ring_nf

theorem bitarrayFetch_bitsOf (h : Reading b) {n v : Nat} {r : List Bool}
    (hin : b.input = bitsOf n v ++ r) (hv : v < 2 ^ n) (hmask : v < 2 ^ 31) :
    ∃ b', bitarrayFetch b n = (some v, b') ∧ Reading b' ∧ b'.input = r := by
  obtain ⟨b', hloop, h', hin'⟩ := fetchLoop_eq (bitsOf n v) 0 0 h hin Nat.one_pos
  refine ⟨b', ?_, h', hin'⟩
  rw [length_bitsOf, natOf_bitsOf n hv] at hloop
  rw [bitarrayFetch, hloop, zero_add, pow_zero, one_mul,
    show (0x7FFFFFFF : Nat) = 2 ^ 31 - 1 from rfl, Nat.and_two_pow_sub_one_eq_mod,
    Nat.mod_eq_of_lt hmask]

/-! ## Writing -/

def BitArray.output (b : BitArray) : List Bool :=
  bitsOfBytes (b.mem.take b.written) ++ bitsOf b.state0 b.state1

/-- A writer has less than a byte that is not stored yet. -/
structure Writing (b : BitArray) : Prop where
  data : b.data = b.written
  size : b.written + b.size = b.mem.length
  state0 : b.state0 < 8
  state1 : b.state1 < 2 ^ b.state0

theorem bitarrayInit_writing (mem : List UInt8) :
    Writing (bitarrayInit mem) ∧ (bitarrayInit mem).output = [] :=
  ⟨⟨rfl, zero_add _, by simp [bitarrayInit], by simp [bitarrayInit]⟩, rfl⟩

structure Shoved (b : BitArray) (xs : List Bool) (b' : BitArray) : Prop where
  writing : Writing b'
  output : b'.output = b.output ++ xs
  length : b'.mem.length = b.mem.length

/-- There was no room: all of the memory is written. -/
structure Full (b b' : BitArray) : Prop where
  written : b'.written = b.mem.length
  state0 : b'.state0 = 0

theorem Shoved.trans {b'' : BitArray} {xs ys : List Bool} (h : Shoved b xs b')
    (h' : Shoved b' ys b'') : Shoved b (xs ++ ys) b'' :=
  ⟨h'.writing, by simp [h'.output, h.output], h'.length.trans h.length⟩

theorem shoveBit_spec (h : Writing b) (x : Bool) :
    (∃ b', shoveBit b x.toNat = (true, b') ∧ Shoved b [x] b') ∨
      ∃ b', shoveBit b x.toNat = (false, b') ∧ Full b b' := by
  have hor : b.state1 ||| (x.toNat <<< b.state0) = b.state1 + 2 ^ b.state0 * x.toNat := by
    rw [Nat.or_comm, ← Nat.shiftLeft_add_eq_or_of_lt h.state1, Nat.shiftLeft_eq]
    ring
  have hlt : b.state1 + 2 ^ b.state0 * x.toNat < 2 ^ (b.state0 + 1) := by
    have hle := Nat.mul_le_mul_left (2 ^ b.state0) (Bool.toNat_le x)
    have hstate := h.state1
    omega
  have hbits := bitsOf_snoc h.state1 x
  unfold shoveBit
  simp only [hor]
  by_cases h8 : b.state0 + 1 < 8
  · rw [if_pos h8]
    refine .inl ⟨_, rfl, ⟨h.data, h.size, h8, hlt⟩, ?_, rfl⟩
    simp only [BitArray.output, hbits, append_assoc]
  rw [if_neg h8]
  have h7 : b.state0 = 7 := by
    have := h.state0
    omega
  by_cases hsize : b.size = 0
  · rw [if_pos hsize]
    refine .inr ⟨_, rfl, ?_, rfl⟩
    have hfull := h.size
    rw [hsize] at hfull
    exact hfull
  rw [if_neg hsize]
  have hroom : b.written < b.mem.length := by
    have := h.size
    omega
  refine .inl ⟨_, rfl, ⟨congrArg (· + 1) h.data, ?_, ?_, ?_⟩, ?_, ?_⟩
  · have := h.size
    simp only [length_set]
    omega
  · simp
  · exact Nat.one_pos
  · rw [h7] at hbits hlt
    obtain ⟨v, hv⟩ : ∃ v, v = b.state1 + 2 ^ 7 * x.toNat := ⟨_, rfl⟩
    rw [← hv] at hbits hlt
    have hbyte : (UInt8.ofNat v).toNat = v := UInt8.toNat_ofNat_of_lt hlt
    have htake : (b.mem.set b.data (UInt8.ofNat v)).take (b.written + 1) =
        b.mem.take b.written ++ [UInt8.ofNat v] := by
      rw [h.data, take_add_one, take_set_of_le le_rfl]
      simp [hroom]
    simp only [BitArray.output, h7, ← hv]
    rw [htake, bitsOfBytes_snoc, hbyte, hbits, bitsOf, append_nil, append_assoc]
  · simp

theorem bitarrayShove_spec (n : Nat) : ∀ {b : BitArray}, Writing b → ∀ v : Nat,
    (∃ b', bitarrayShove b n v = (true, b') ∧ Shoved b (bitsOf n v) b') ∨
      ∃ b', bitarrayShove b n v = (false, b') ∧ Full b b' := by
  induction n with
  | zero =>
    intro b h v
    exact .inl ⟨b, rfl, h, by simp [bitsOf], rfl⟩
  | succ n ih =>
    intro b h v
    have hlow : v &&& 1 = (decide (v % 2 = 1)).toNat := by
      rw [Nat.and_one_is_mod]
      by_cases hodd : v % 2 = 1
      · simp [hodd]
      · simp only [hodd, decide_false, Bool.toNat_false]
        omega
    rw [bitarrayShove, hlow, Nat.shiftRight_one, bitsOf]
    rcases shoveBit_spec h (decide (v % 2 = 1)) with ⟨b1, hbit, h1⟩ | ⟨b1, hbit, hfull⟩
    · rw [hbit]
      rcases ih h1.writing (v / 2) with ⟨b2, hrest, h2⟩ | ⟨b2, hrest, hfull⟩
      · exact .inl ⟨b2, hrest, h1.trans h2⟩
      · exact .inr ⟨b2, hrest, hfull.written.trans h1.length, hfull.state0⟩
    · rw [hbit]
      exact .inr ⟨b1, rfl, hfull⟩

theorem bitsOf_zero (n : Nat) : bitsOf n 0 = replicate n false := by
  induction n with
  | zero => rfl
  | succ n ih =>
    rw [bitsOf, Nat.zero_div, ih, replicate_succ]
    rfl

theorem bitarrayWritten_spec (h : Writing b) :
    (∃ b' n, bitarrayWritten b = (true, b'.written, b') ∧ Shoved b (replicate n false) b' ∧
      b'.output = bitsOfBytes (b'.mem.take b'.written)) ∨
      ∃ b', bitarrayWritten b = (false, b'.written, b') ∧ Full b b' := by
  obtain ⟨n, hn⟩ : ∃ n, n = if b.state0 ≠ 0 then 8 - b.state0 else 0 := ⟨_, rfl⟩
  rcases bitarrayShove_spec n h 0 with ⟨b', hshove, hb⟩ | ⟨b', hshove, hfull⟩
  · refine .inl ⟨b', n, ?_, bitsOf_zero n ▸ hb, ?_⟩
    · rw [bitarrayWritten, ← hn, hshove]
    -- the length of the output is a multiple of eight, so no bit is left
    have hlen := congrArg length hb.output
    simp only [BitArray.output, length_append, length_bitsOf, length_bitsOfBytes] at hlen
    have hstate := hb.writing.state0
    have hstate0 := h.state0
    have hzero : b'.state0 = 0 := by
      by_cases h0 : b.state0 = 0
      · simp only [h0, ne_eq, not_true_eq_false, if_false] at hn
        omega
      · simp only [h0, ne_eq, not_false_eq_true, if_true] at hn
        omega
    rw [BitArray.output, hzero, bitsOf, append_nil]
  · exact .inr ⟨b', by rw [bitarrayWritten, ← hn, hshove], hfull⟩

/-- `struct huffman`. -/
structure Huffman where
  (lengths symbols : List Nat)
  completed : Bool
deriving DecidableEq

/-- The number of words of each length; a length is 15 at most. -/
def countLengths : List Nat → List Nat → Option (List Nat)
  | [], lengths => some lengths
  | len :: rest, lengths =>
    if len > 15 then none
    else countLengths rest (lengths.set len (lengths.getD len 0 + 1))

/-- What is left of the code space after the given lengths; `none` is too
many words. -/
def codeSpace : List Nat → Int → Option Int
  | [], t => some t
  | len :: rest, t => if t * 2 - len < 0 then none else codeSpace rest (t * 2 - len)

/-- The first index of the symbols of each length. -/
def symbolOffsets (lengths : List Nat) : List Nat :=
  ((range 15).drop 1).foldl (fun buf i => buf.set (i + 1) (lengths.getD i 0 + buf.getD i 0))
    (replicate 16 0)

/-- A symbol is put above the bit-length that its place still holds. -/
def placeSymbol (s : List Nat × List Nat) (i : Nat) : List Nat × List Nat :=
  let (symbols, buf) := s
  let len := symbols.getD i 0 &&& 0x0F
  if len = 0 then (symbols, buf)
  else
    let k := buf.getD len 0
    (symbols.set k (symbols.getD k 0 ||| (i <<< 4)), buf.set len (k + 1))

/-- `huffman_init`; the symbols are bit-lengths before. -/
def huffmanInit (symbols : List Nat) : Except Int Huffman :=
  match countLengths symbols (replicate 16 0) with
  | none => .error (-1)
  | some lengths =>
    if lengths.getD 0 0 ≠ symbols.length then
      match codeSpace (lengths.drop 1) 1 with
      | none => .error (-2)
      | some t =>
        let (symbols, _) :=
          (range symbols.length).foldl placeSymbol (symbols, symbolOffsets lengths)
        .ok ⟨lengths, symbols.map (· >>> 4), t = 0⟩
    else .ok ⟨lengths, symbols, false⟩

/-- The loop over the lengths: `i` is the next one, `off` and `base` are the
first symbol and the first word of that length. -/
def fetchSymbol (h : Huffman) : Nat → Nat → Nat → Nat → Nat → BitArray → Int × BitArray
  | 0, _, _, _, _, b => (-2, b)
  | left + 1, i, base, off, val, b =>
    match nextBit b with
    | (none, b) => (-1, b)
    | (some x, b) =>
      let len := h.lengths.getD i 0
      let val := (val <<< 1) ||| x.toNat
      if val < base + len then (h.symbols.getD (off + (val - base)) 0, b)
      else fetchSymbol h left (i + 1) ((base + len) <<< 1) (off + len) val b

def huffmanFetch (h : Huffman) (b : BitArray) : Int × BitArray := fetchSymbol h 15 1 0 0 0 b

/-- The `i` lowest bits in the opposite order. -/
def reversedBits (val i : Nat) : Nat :=
  (range i).foldl (fun rev k => (rev <<< 1) ||| (if val &&& (1 <<< k) ≠ 0 then 1 else 0)) 0

/-- A table: the length and the word of each symbol, which are two elements
of the array. -/
abbrev Table := List (Nat × Nat)

/-- The words of length `i`; `none` is a symbol outside the table. -/
def tableWords (h : Huffman) (n i off : Nat) : Nat → Nat → Table × Nat → Option (Table × Nat)
  | 0, _, s => some s
  | left + 1, j, (table, val) =>
    let sym := h.symbols.getD (off + j) 0
    if sym * 2 ≥ n then none
    else tableWords h n i off left (j + 1) (table.set sym (i, reversedBits val i), val + 1)

def tableLoop (h : Huffman) (n : Nat) : Nat → Nat → Nat → Table × Nat → Option Table
  | 0, _, _, (table, _) => some table
  | left + 1, i, off, s =>
    let len := h.lengths.getD i 0
    match tableWords h n i off len 0 s with
    | none => none
    | some (table, val) => tableLoop h n left (i + 1) (off + len) (table, val <<< 1)

/-- `huffman_table`, for an array of `n` elements that is not the one of the
symbols. -/
def huffmanTable (h : Huffman) (n : Nat) : Except Int Table :=
  if (h.lengths.drop 1).sum * 2 ≠ n then .error (-1)
  else
    match tableLoop h n 15 1 0 (replicate (n / 2) (0, 0), 0) with
    | none => .error (-2)
    | some table => .ok table

/-- `fetchSymbol` on a string of bits. -/
def decodeWord (h : Huffman) : Nat → Nat → Nat → Nat → Nat → List Bool → Option (Nat × List Bool)
  | 0, _, _, _, _, _ => none
  | _ + 1, _, _, _, _, [] => none
  | left + 1, i, base, off, val, x :: xs =>
    let len := h.lengths.getD i 0
    let val := (val <<< 1) ||| x.toNat
    if val < base + len then some (h.symbols.getD (off + (val - base)) 0, xs)
    else decodeWord h left (i + 1) ((base + len) <<< 1) (off + len) val xs

def IsWord (h : Huffman) (sym : Nat) (xs : List Bool) : Prop :=
  decodeWord h 15 1 0 0 0 xs = some (sym, [])

instance (h : Huffman) (sym : Nat) (xs : List Bool) : Decidable (IsWord h sym xs) :=
  inferInstanceAs (Decidable (_ = _))

theorem fetchSymbol_eq (h : Huffman) (left : Nat) : ∀ {i base off val sym : Nat} {xs : List Bool}
    {b : BitArray} {r : List Bool}, decodeWord h left i base off val xs = some (sym, []) →
      Reading b → b.input = xs ++ r →
        ∃ b', fetchSymbol h left i base off val b = ((sym : Int), b') ∧ Reading b' ∧ b'.input = r := by
  induction left with
  | zero =>
    intro i base off val sym xs b r hword
    cases hword
  | succ left ih =>
    intro i base off val sym xs b r hword hb hin
    cases xs with
    | nil => cases hword
    | cons x xs =>
      obtain ⟨b1, hbit, h1, hin1⟩ := nextBit_cons hb hin
      rw [fetchSymbol, hbit]
      rw [decodeWord] at hword
      simp only at hword ⊢
      by_cases hlt : (val <<< 1) ||| x.toNat < base + h.lengths.getD i 0
      · rw [if_pos hlt] at hword ⊢
        obtain ⟨hsym, hnil⟩ := Prod.mk.inj (Option.some.inj hword)
        rw [hnil] at hin1
        exact ⟨b1, by rw [hsym], h1, hin1⟩
      · rw [if_neg hlt] at hword ⊢
        exact ih hword h1 hin1

theorem huffmanFetch_word {h : Huffman} {sym : Nat} {xs r : List Bool} {b : BitArray}
    (hword : IsWord h sym xs) (hb : Reading b) (hin : b.input = xs ++ r) :
    ∃ b', huffmanFetch h b = ((sym : Int), b') ∧ Reading b' ∧ b'.input = r :=
  fetchSymbol_eq h 15 hword hb hin

theorem IsWord.ne_nil {h : Huffman} {sym : Nat} {xs : List Bool} (hword : IsWord h sym xs) :
    xs ≠ [] := by
  rintro rfl
  cases hword

/-! ## The static codes -/

/-- The lengths of the literals and lengths, and those of the distances. -/
def codeSymbols : List Nat :=
  replicate 144 8 ++ replicate 112 9 ++ replicate 24 7 ++ replicate 8 8

def distSymbols : List Nat := replicate 32 5

def wordOf (table : Table) (sym : Nat) : List Bool :=
  bitsOf (table.getD sym (0, 0)).1 (table.getD sym (0, 0)).2

/-- The code of the literals and lengths: the symbols by the lengths of
their words. -/
def codeHuffman : Huffman :=
  ⟨[0, 0, 0, 0, 0, 0, 0, 24, 152, 112, 0, 0, 0, 0, 0, 0],
    range' 256 24 ++ range' 0 144 ++ range' 280 8 ++ range' 144 112, true⟩

def distHuffman : Huffman :=
  ⟨[0, 0, 0, 0, 0, 32, 0, 0, 0, 0, 0, 0, 0, 0, 0, 0], range' 0 32, true⟩

/-- The words of `n` symbols from `first` on, of length `i`, from `val` on. -/
def wordsFrom (i n val : Nat) : Table :=
  (range' val n).map fun v => (i, reversedBits v i)

def codeTable : Table :=
  wordsFrom 8 144 0x30 ++ wordsFrom 9 112 0x190 ++ wordsFrom 7 24 0 ++ wordsFrom 8 8 0xC0

def distTable : Table := wordsFrom 5 32 0

/-- `length_codes`, the same in both files: the extra bits and the first
length of the symbols from 257 on. -/
def lengthCodes : List (Nat × Nat) :=
  [(0, 3), (0, 4), (0, 5), (0, 6), (0, 7), (0, 8), (0, 9), (0, 10),
    (1, 11), (1, 13), (1, 15), (1, 17), (2, 19), (2, 23), (2, 27), (2, 31),
    (3, 35), (3, 43), (3, 51), (3, 59), (4, 67), (4, 83), (4, 99), (4, 115),
    (5, 131), (5, 163), (5, 195), (5, 227), (0, 258)]

/-- `distance_codes`, the same in both files. -/
def distanceCodes : List (Nat × Nat) :=
  [(0, 1), (0, 2), (0, 3), (0, 4), (1, 5), (1, 7), (2, 9), (2, 13), (3, 17), (3, 25),
    (4, 33), (4, 49), (5, 65), (5, 97), (6, 129), (6, 193), (7, 257), (7, 385),
    (8, 513), (8, 769), (9, 1025), (9, 1537), (10, 2049), (10, 3073), (11, 4097), (11, 6145),
    (12, 8193), (12, 12289), (13, 16385), (13, 24577), (0, 65535)]

/-! ## Compression -/

section Compress

variable (code_table dist_table : Table)

/-- The loops of `put_lendist`: the index of the code of `x`, from `i` on.
`none` is past the table. -/
def findCode (x : Nat) : List (Nat × Nat) → Nat → Option Nat
  | [], _ => none
  | [(_, val)], i => if x = val then some i else none
  | (_, val) :: (extra, next) :: rest, i =>
    if x = val ∨ x < next then some i else findCode x ((extra, next) :: rest) (i + 1)

def putCode (b : BitArray) (word code : Nat × Nat) (x : Nat) : Bool × BitArray :=
  match bitarrayShove b word.1 word.2 with
  | (false, b) => (false, b)
  | (true, b) => if code.1 ≠ 0 then bitarrayShove b code.1 (x - code.2) else (true, b)

def putLendist (b : BitArray) (len dist : Nat) : Bool × BitArray :=
  if len < 3 ∨ len > 258 ∨ dist < 1 ∨ dist > 32768 then (false, b)
  else
    match findCode len lengthCodes 0 with
    | none => (false, b)
    | some i =>
      match putCode b (code_table.getD (257 + i) (0, 0)) (lengthCodes.getD i (0, 0)) len with
      | (false, b) => (false, b)
      | (true, b) =>
        match findCode dist distanceCodes 0 with
        | none => (false, b)
        | some i => putCode b (dist_table.getD i (0, 0)) (distanceCodes.getD i (0, 0)) dist

def putLiteral (b : BitArray) (c : UInt8) : Bool × BitArray :=
  bitarrayShove b (code_table.getD c.toNat (0, 0)).1 (code_table.getD c.toNat (0, 0)).2

/-- The loop that compares the bytes at a distance, from the `j`-th on. -/
def matchLength (data : List UInt8) (i dist : Nat) : Nat → Nat → Nat
  | 0, j => j
  | left + 1, j =>
    if data.getD (i - dist + j) 0 ≠ data.getD (i + j) 0 then j
    else matchLength data i dist left (j + 1)

/-- The loop over the distances: the length and the distance of the longest
match, or of the first one that is long enough. -/
def findMatch (data : List UInt8) (i limit : Nat) (c1 c2 : UInt8) : Nat → Nat → Nat × Nat →
    Nat × Nat
  | 0, _, found => found
  | left + 1, dist, found =>
    if data.getD (i - dist) 0 = c1 ∧ data.getD (i - dist + 1) 0 = c2 then
      let j := matchLength data i dist (limit - 2) 2
      if found.1 < j then
        if j ≥ 64 then (j, dist) else findMatch data i limit c1 c2 left (dist + 1) (j, dist)
      else findMatch data i limit c1 c2 left (dist + 1) found
    else findMatch data i limit c1 c2 left (dist + 1) found

/-- The match that is used at `i`; the distance is zero if there is none. -/
def matchAt (data : List UInt8) (i : Nat) : Nat × Nat :=
  let window_size := if data.length ≤ 524288 then 32768 else 1024
  let limit := if data.length - i < 258 then data.length - i else 258
  findMatch data i limit (data.getD i 0) (if limit > 2 then data.getD (i + 1) 0 else 0)
    (min i window_size) 1 (2, 0)

/-- The loop of `lz77_compress`; `i` grows in each round. -/
def lz77Loop (data : List UInt8) : Nat → Nat → BitArray → Bool × BitArray
  | 0, _, b => (true, b)
  | fuel + 1, i, b =>
    if i < data.length then
      let found := matchAt data i
      if found.2 ≠ 0 then
        match putLendist code_table dist_table b found.1 found.2 with
        | (false, b) => (false, b)
        | (true, b) => lz77Loop data fuel (i + found.1) b
      else
        match putLiteral code_table b (data.getD i 0) with
        | (false, b) => (false, b)
        | (true, b) => lz77Loop data fuel (i + 1) b
    else (true, b)

def lz77Compress (b : BitArray) (data : List UInt8) : Bool × BitArray :=
  match putLiteral code_table b (data.getD 0 0) with
  | (false, b) => (false, b)
  | (true, b) => lz77Loop code_table dist_table data data.length 1 b

end Compress

/-- The stream of `deflate_compress` in a buffer of the size of the data. -/
def deflateStream (code_table dist_table : Table) (data buf : List UInt8) : Nat × List UInt8 :=
  let (_, b) := bitarrayShove (bitarrayInit buf) 1 1
  let (_, b) := bitarrayShove b 2 1
  match lz77Compress code_table dist_table b data with
  | (false, _) => (1, data)
  | (true, b) =>
    let (_, b) := bitarrayShove b (code_table.getD 256 (0, 0)).1 (code_table.getD 256 (0, 0)).2
    match bitarrayWritten b with
    | (ok, written, b) =>
      if ok = false ∨ written > data.length - 1 then (1, data) else (0, b.mem.take written)

def staticTable (symbols : List Nat) (n : Nat) : Except Int Table :=
  match huffmanInit symbols with
  | .error e => .error e
  | .ok h => huffmanTable h n

/-- `deflate_compress`: what is returned, and the data after. `malloc` gives
the bytes that a new buffer holds. -/
def deflateCompress (malloc : Nat → Option (Nat → UInt8)) (data : List UInt8) :
    Nat × List UInt8 :=
  if data.length < 4 then (1, data)
  else
    match staticTable codeSymbols (2 * 288), staticTable distSymbols (2 * 32),
        malloc data.length with
    | .ok code_table, .ok dist_table, some bytes =>
      deflateStream code_table dist_table data ((range data.length).map bytes)
    | _, _, _ => (1, data)

/-- The loop that copies bytes from a distance. -/
def copyBytes : Nat → Nat → List UInt8 → List UInt8
  | 0, _, out => out
  | len + 1, dist, out => copyBytes len dist (out ++ [out.getD (out.length - dist) 0])

/-- A length whose code was read, and its distance. -/
def inflateCopy (h_dist : Huffman) (size : Nat) (code : Nat × Nat) (b : BitArray)
    (out : List UInt8) : Except Nat (BitArray × List UInt8) :=
  match bitarrayFetch b code.1 with
  | (none, _) => .error 5
  | (some val, b) =>
    let len := code.2 + val
    if out.length + len > size then .error 5
    else
      match huffmanFetch h_dist b with
      | (sym, b) =>
        if sym < 0 ∨ sym ≥ 30 then .error 5
        else
          let code := distanceCodes.getD sym.toNat (0, 0)
          match bitarrayFetch b code.1 with
          | (none, _) => .error 5
          | (some val, b) =>
            let dist := code.2 + val
            if dist > out.length then .error 4 else .ok (b, copyBytes len dist out)

/-- The loop of `inflate`; `out` is what is written so far, and `none` is
out of fuel. -/
def inflateLoop (h_code h_dist : Huffman) (size : Nat) : Nat → BitArray → List UInt8 →
    Option (Nat × List UInt8)
  | 0, _, _ => none
  | fuel + 1, b, out =>
    match huffmanFetch h_code b with
    | (sym, b) =>
      if sym = 256 then some (if size ≠ out.length then 1 else 0, out)
      else if sym < 0 then some (3, out)
      else if sym < 256 then
        if out.length ≥ size then some (4, out)
        else inflateLoop h_code h_dist size fuel b (out ++ [UInt8.ofNat sym.toNat])
      else if sym ≥ 286 then some (5, out)
      else
        match inflateCopy h_dist size (lengthCodes.getD (sym - 257).toNat (0, 0)) b out with
        | .error e => some (e, out)
        | .ok (b, out) => inflateLoop h_code h_dist size fuel b out

/-- The body of `inflate`, after `inflate_init`. -/
def inflateWith (code dist : Except Int Huffman) (fuel : Nat) (b : BitArray) (size : Nat) :
    Option (Nat × List UInt8) :=
  match code, dist with
  | .ok h_code, .ok h_dist =>
    match bitarrayFetch b 1 with
    | (val, b) =>
      if val ≠ some 1 then some (2, [])
      else
        match bitarrayFetch b 2 with
        | (val, b) =>
          if val ≠ some 1 then some (2, [])
          else inflateLoop h_code h_dist size fuel b []
  | _, _ => some (2, [])

/-- `inflate`, into a buffer of the given size: what is returned, and the
bytes that were written. -/
def inflate (fuel : Nat) (b : BitArray) (size : Nat) : Option (Nat × List UInt8) :=
  inflateWith (huffmanInit codeSymbols) (huffmanInit distSymbols) fuel b size

end Dancy.Zip
