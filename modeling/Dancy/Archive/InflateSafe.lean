import Dancy.Archive.Huffman

/-!
# Accesses of the decompressor (`inflate.c`, `huffman.c`, `bitarray.c`)

Every access of an array is checked here: a read or a write outside of it ends
the run with a fault. The code descriptions may be any lists of lengths, also
those that `inflate` never builds. The loop of `inflate` runs on fuel, and
takes a bit in each round.
-/

namespace Dancy.Zip

open Dancy.Lib List Option

/-! ## `huffman_init` -/

/-- `countLengths` with its accesses; the outer `none` is a fault. -/
def countChecked : List Nat → List Nat → Option (Option (List Nat))
  | [], lengths => some (some lengths)
  | len :: rest, lengths =>
    if len > 15 then some none
    else
      match lengths[len]? with
      | none => none
      | some k => countChecked rest (lengths.set len (k + 1))

/-- One round of the loop that fills `buf`. -/
def offsetChecked (lengths buf : List Nat) (i : Nat) : Option (List Nat) :=
  match lengths[i]?, buf[i]? with
  | some len, some off => if i + 1 < buf.length then some (buf.set (i + 1) (len + off)) else none
  | _, _ => none

/-- `placeSymbol` with its accesses. -/
def placeChecked (s : List Nat × List Nat) (i : Nat) : Option (List Nat × List Nat) :=
  match s.1[i]? with
  | none => none
  | some e =>
    if e &&& 0x0F = 0 then some s
    else
      match s.2[e &&& 0x0F]? with
      | none => none
      | some k =>
        match s.1[k]? with
        | none => none
        | some old => some (s.1.set k (old ||| (i <<< 4)), s.2.set (e &&& 0x0F) (k + 1))

/-- `huffman_init`. -/
def huffmanInitChecked (symbols : List Nat) : Option (Except Int Huffman) :=
  match countChecked symbols (replicate 16 0) with
  | none => none
  | some none => some (.error (-1))
  | some (some lengths) =>
    if lengths.getD 0 0 ≠ symbols.length then
      match codeSpace (lengths.drop 1) 1 with
      | none => some (.error (-2))
      | some t =>
        match ((range 15).drop 1).foldlM (offsetChecked lengths) (replicate 16 0) with
        | none => none
        | some buf =>
          match (range symbols.length).foldlM placeChecked (symbols, buf) with
          | none => none
          | some s => some (.ok ⟨lengths, s.1.map (· >>> 4), t = 0⟩)
    else some (.ok ⟨lengths, symbols, false⟩)

/-- The lengths are those of 16 counters, and there is a symbol for each word. -/
structure TableOk (h : Huffman) : Prop where
  lengths : h.lengths.length = 16
  symbols : firstOf h.lengths 16 ≤ h.symbols.length

variable {L lengths : List Nat}

theorem countChecked_eq (L : List Nat) : ∀ {lengths : List Nat}, lengths.length = 16 →
    countChecked L lengths = some (countLengths L lengths) := by
  induction L with
  | nil => exact fun _ => rfl
  | cons len rest ih =>
    intro lengths h
    rw [countChecked, countLengths]
    by_cases hbig : len > 15
    · rw [if_pos hbig, if_pos hbig]
    have hlt : len < lengths.length := by omega
    rw [if_neg hbig, if_neg hbig, getElem?_eq_getElem hlt]
    dsimp only
    rw [ih (by rw [length_set, h]), getD_eq_getElem?_getD, getElem?_eq_getElem hlt]
    rfl

theorem offsetChecked_eq (h : lengths.length = 16) {buf : List Nat} (hbuf : buf.length = 16) {i : Nat}
    (hi : i < 15) : offsetChecked lengths buf i =
      some (buf.set (i + 1) (lengths.getD i 0 + buf.getD i 0)) := by
  have h1 : i < lengths.length := by omega
  have h2 : i < buf.length := by omega
  rw [offsetChecked, getElem?_eq_getElem h1, getElem?_eq_getElem h2,
    getD_eq_getElem?_getD, getD_eq_getElem?_getD, getElem?_eq_getElem h1,
    getElem?_eq_getElem h2]
  exact if_pos (by omega)

theorem offsets_fold (h : lengths.length = 16) (is : List Nat) : ∀ {buf : List Nat},
    buf.length = 16 → (∀ i ∈ is, i < 15) → is.foldlM (offsetChecked lengths) buf =
        some (is.foldl (fun buf i => buf.set (i + 1) (lengths.getD i 0 + buf.getD i 0)) buf) := by
  induction is with
  | nil => simp
  | cons i is ih =>
    intro buf hbuf hall
    obtain ⟨hi, hall⟩ := forall_mem_cons.1 hall
    rw [foldlM_cons, offsetChecked_eq h hbuf hi, foldl_cons]
    exact ih (by rw [length_set, hbuf]) hall

theorem placeChecked_eq (h : Counted L lengths) {i : Nat} (hi : i < L.length)
    {s : List Nat × List Nat} (hs : Placing L lengths i s) :
    placeChecked s i = some (placeSymbol s i) := by
  obtain ⟨symbols, buf⟩ := s
  have hsize : symbols.length = L.length := hs.size
  have hbuf : buf.length = 16 := hs.buf
  have hkept : symbols.getD i 0 &&& 0x0F = L.getD i 0 := hs.kept i hi
  have h15 := h.getD_le hi
  rw [placeChecked, placeSymbol]
  dsimp only
  rw [getElem?_getD (by omega)]
  dsimp only
  rw [hkept]
  by_cases h0 : L.getD i 0 = 0
  · rw [if_pos h0, if_pos h0]
  have hnext : buf.getD (L.getD i 0) 0 = placeOf L lengths i := hs.next _ (by omega) h15
  have hplace := h.placeOf_lt hi (by omega)
  rw [if_neg h0, if_neg h0, getElem?_getD (by omega)]
  dsimp only
  rw [getElem?_getD (by omega)]

theorem place_fold (h : Counted L lengths) {s : List Nat × List Nat} (hs : Placing L lengths 0 s)
    (n : Nat) : n ≤ L.length →
      (range n).foldlM placeChecked s = some ((range n).foldl placeSymbol s) := by
  induction n with
  | zero => exact fun _ => rfl
  | succ n ih =>
    intro hn
    rw [range_succ, foldlM_append, ih (by omega), foldl_append]
    simp [placeChecked_eq h hn (hs.run h n (by omega))]

theorem huffmanInitChecked_eq (symbols : List Nat) :
    huffmanInitChecked symbols = some (huffmanInit symbols) := by
  rw [huffmanInitChecked, huffmanInit, countChecked_eq symbols (length_replicate ..)]
  rcases hcount : countLengths symbols (replicate 16 0) with _ | lengths
  · rfl
  have hL := counted hcount
  have hoffsets := offsets_fold hL.size ((range 15).drop 1) (length_replicate (a := 0))
    (by decide)
  dsimp only
  by_cases hsome : lengths.getD 0 0 ≠ symbols.length
  · rw [if_pos hsome, if_pos hsome]
    rcases codeSpace (lengths.drop 1) 1 with _ | t
    · rfl
    · rw [hoffsets]
      dsimp only
      rw [← symbolOffsets, place_fold hL (.start hL) symbols.length le_rfl]
  · rw [if_neg hsome, if_neg hsome]

variable {h : Huffman}

theorem huffmanInit_ok {symbols : List Nat} (hinit : huffmanInit symbols = .ok h) : TableOk h := by
  have hc := huffmanInit_canonical hinit
  refine ⟨hc.size, ?_⟩
  rw [hc.symbols_size]
  exact hc.firstOf_le (le_refl 16)

/-- `nextBit` with its access. -/
def nextBitChecked (b : BitArray) : Option (Option Bool × BitArray) :=
  if b.state0 ≠ 0 then
    some (some (b.state1 % 2 = 1), { b with state0 := b.state0 - 1, state1 := b.state1 / 2 })
  else if b.size ≠ 0 then
    match b.mem[b.data]? with
    | none => none
    | some c =>
      some (some (c.toNat % 2 = 1),
        { b with data := b.data + 1, size := b.size - 1, state0 := 7, state1 := c.toNat / 2 })
  else some (none, bitarrayClear b)

def fetchChecked : Nat → Nat → Nat → BitArray → Option (Option Nat × BitArray)
  | 0, _, ret, b => some (some (ret &&& 0x7FFFFFFF), b)
  | n + 1, bit, ret, b =>
    match nextBitChecked b with
    | none => none
    | some (some x, b) => fetchChecked n (bit + 1) (ret ||| (x.toNat <<< bit)) b
    | some (none, b) => some (none, b)

/-- `bitarray_fetch`. -/
def bitarrayFetchChecked (b : BitArray) (bits : Nat) : Option (Option Nat × BitArray) :=
  fetchChecked bits 0 0 b

def bitsLeft (b : BitArray) : Nat := b.state0 + 8 * b.size

variable {b b' : BitArray}

theorem nextBitChecked_eq (h : Reading b) :
    nextBitChecked b = some (nextBit b) ∧ Reading (nextBit b).2 ∧
      ((nextBit b).1 ≠ none → bitsLeft (nextBit b).2 + 1 = bitsLeft b) := by
  rw [nextBitChecked, nextBit]
  unfold Reading at h
  by_cases h0 : b.state0 ≠ 0
  · rw [if_pos h0, if_pos h0]
    refine ⟨rfl, h, fun _ => ?_⟩
    show b.state0 - 1 + 8 * b.size + 1 = b.state0 + 8 * b.size
    omega
  rw [if_neg h0, if_neg h0]
  by_cases hs : b.size ≠ 0
  · have hlt : b.data < b.mem.length := by omega
    rw [if_pos hs, if_pos hs, getElem?_eq_getElem hlt, getD_eq_getElem?_getD,
      getElem?_eq_getElem hlt]
    refine ⟨rfl, ?_, fun _ => ?_⟩
    · show b.data + 1 + (b.size - 1) ≤ b.mem.length
      omega
    · show 7 + 8 * (b.size - 1) + 1 = b.state0 + 8 * b.size
      omega
  · rw [if_neg hs, if_neg hs]
    exact ⟨rfl, Nat.zero_le _, fun hne => absurd rfl hne⟩

theorem fetchChecked_eq (n : Nat) : ∀ {b : BitArray} {bit ret : Nat}, Reading b → ret < 2 ^ bit →
    fetchChecked n bit ret b = some (fetchLoop n bit ret b) ∧ Reading (fetchLoop n bit ret b).2 ∧
      ∀ v, (fetchLoop n bit ret b).1 = some v →
        v < 2 ^ (bit + n) ∧ bitsLeft (fetchLoop n bit ret b).2 + n = bitsLeft b := by
  induction n with
  | zero =>
    refine fun h hret => ⟨rfl, h, fun v hv => ?_⟩
    cases hv
    exact ⟨lt_of_le_of_lt Nat.and_le_left hret, rfl⟩
  | succ n ih =>
    intro b bit ret h hret
    obtain ⟨hchecked, hreading, hleft⟩ := nextBitChecked_eq h
    rw [fetchChecked, hchecked, fetchLoop]
    rcases hbit : nextBit b with ⟨_ | x, b1⟩ <;> rw [hbit] at hreading hleft
    · exact ⟨rfl, hreading, fun v hv => by cases hv⟩
    have hlt : ret ||| (x.toNat <<< bit) < 2 ^ (bit + 1) := by
      refine Nat.or_lt_two_pow (lt_trans hret (Nat.pow_lt_pow_succ (by decide))) ?_
      rw [Nat.shiftLeft_eq, pow_succ, mul_comm (2 ^ bit)]
      exact Nat.mul_lt_mul_of_pos_right (by cases x <;> decide) (Nat.two_pow_pos bit)
    obtain ⟨h1, h2, h3⟩ := ih hreading hlt
    have hone := hleft (by simp)
    refine ⟨h1, h2, fun v hv => ?_⟩
    obtain ⟨hv, hbits⟩ := h3 v hv
    refine ⟨by rwa [add_right_comm] at hv, ?_⟩
    dsimp only at hbits hone ⊢
    omega

theorem bitarrayFetchChecked_eq (h : Reading b) (bits : Nat) :
    bitarrayFetchChecked b bits = some (bitarrayFetch b bits) ∧ Reading (bitarrayFetch b bits).2 ∧
      ∀ v, (bitarrayFetch b bits).1 = some v →
        v < 2 ^ bits ∧ bitsLeft (bitarrayFetch b bits).2 + bits = bitsLeft b := by
  obtain ⟨h1, h2, h3⟩ := fetchChecked_eq bits h (show 0 < 2 ^ 0 by decide)
  rw [zero_add] at h3
  exact ⟨h1, h2, h3⟩

/-! ## `huffman_fetch` -/

/-- `fetchSymbol` with its accesses; a difference below zero counts as one
outside of the array. -/
def fetchSymbolChecked (h : Huffman) : Nat → Nat → Nat → Nat → Nat → BitArray →
    Option (Int × BitArray)
  | 0, _, _, _, _, b => some (-2, b)
  | left + 1, i, base, off, val, b =>
    match nextBitChecked b with
    | none => none
    | some (none, b) => some (-1, b)
    | some (some x, b) =>
      match h.lengths[i]? with
      | none => none
      | some len =>
        if (val <<< 1) ||| x.toNat < base + len then
          if (val <<< 1) ||| x.toNat < base then none
          else
            match h.symbols[off + (((val <<< 1) ||| x.toNat) - base)]? with
            | none => none
            | some sym => some (sym, b)
        else
          fetchSymbolChecked h left (i + 1) ((base + len) <<< 1) (off + len)
            ((val <<< 1) ||| x.toNat) b

def huffmanFetchChecked (h : Huffman) (b : BitArray) : Option (Int × BitArray) :=
  fetchSymbolChecked h 15 1 0 0 0 b

theorem fetchSymbolChecked_eq (hok : TableOk h) (left : Nat) :
    ∀ {i base off val : Nat} {b : BitArray}, Reading b → 1 ≤ i → i + left ≤ 16 →
      base ≤ 2 * val → off = firstOf h.lengths i →
      fetchSymbolChecked h left i base off val b = some (fetchSymbol h left i base off val b) ∧
        Reading (fetchSymbol h left i base off val b).2 ∧
        (0 ≤ (fetchSymbol h left i base off val b).1 →
          bitsLeft (fetchSymbol h left i base off val b).2 < bitsLeft b) := by
  induction left with
  | zero =>
    exact fun hb _ _ _ _ => ⟨rfl, hb, fun h => absurd h (show ¬ (0 : Int) ≤ -2 by decide)⟩
  | succ left ih =>
    intro i base off val b hb hi hleft hbase hoff
    obtain ⟨hchecked, hreading, hbits⟩ := nextBitChecked_eq hb
    rw [fetchSymbolChecked, hchecked, fetchSymbol]
    rcases hbit : nextBit b with ⟨_ | x, b1⟩ <;> rw [hbit] at hreading hbits
    · exact ⟨rfl, hreading, fun h => absurd h (show ¬ (0 : Int) ≤ -1 by decide)⟩
    have hone := hbits (by simp)
    have hval : 2 * val ≤ (val <<< 1) ||| x.toNat := by
      have hle : val <<< 1 ≤ (val <<< 1) ||| x.toNat := Nat.left_le_or
      rwa [Nat.shiftLeft_eq, Nat.pow_one, mul_comm] at hle
    have hlt : i < h.lengths.length := by
      rw [hok.lengths]
      omega
    obtain ⟨v, hv⟩ : ∃ v, v = (val <<< 1) ||| x.toNat := ⟨_, rfl⟩
    dsimp only at hone hreading ⊢
    rw [getElem?_getD hlt, ← hv]
    dsimp only
    by_cases hin : v < base + h.lengths.getD i 0
    · have hsucc := firstOf_succ h.lengths hi
      have hmono := firstOf_mono h.lengths (show i + 1 ≤ 16 by omega)
      have hsym := hok.symbols
      rw [if_pos hin, if_pos hin, if_neg (by omega), getElem?_getD (by omega)]
      refine ⟨rfl, hreading, fun _ => ?_⟩
      dsimp only
      omega
    · rw [if_neg hin, if_neg hin]
      have hnext : (base + h.lengths.getD i 0) <<< 1 ≤ 2 * v := by
        omega
      obtain ⟨h1, h2, h3⟩ := ih hreading (by omega)
        (by omega) hnext
        (show off + h.lengths.getD i 0 = firstOf h.lengths (i + 1) by
          rw [hoff, firstOf_succ h.lengths hi, add_comm])
      refine ⟨h1, h2, fun hge => ?_⟩
      omega

theorem huffmanFetchChecked_eq (hok : TableOk h) (hb : Reading b) :
    huffmanFetchChecked h b = some (huffmanFetch h b) ∧ Reading (huffmanFetch h b).2 ∧
      (0 ≤ (huffmanFetch h b).1 → bitsLeft (huffmanFetch h b).2 < bitsLeft b) :=
  fetchSymbolChecked_eq hok 15 hb (le_refl 1) (by decide) (le_refl 0) rfl

/-- How a run ends. A return has its value, `*size`, the number of bytes that
were written, and the buffer. -/
inductive Outcome where
  | fault
  | timeout
  | returned (value size off : Nat) (out : List UInt8)

/-- The loop that copies bytes from a distance, with its accesses. -/
def copyChecked (dist : Nat) : Nat → Nat → List UInt8 → Option (Nat × List UInt8)
  | 0, off, out => some (off, out)
  | len + 1, off, out =>
    if off < dist then none
    else
      match out[off - dist]? with
      | none => none
      | some c =>
        if off < out.length then copyChecked dist len (off + 1) (out.set off c) else none

/-- `inflateCopy` with its accesses; `size_t` has `bits` bits, and the outer
`none` is a fault. -/
def inflateCopyChecked (bits : Nat) (h_dist : Huffman) (size : Nat) (code : Nat × Nat)
    (b : BitArray) (off : Nat) (out : List UInt8) :
    Option (Except Nat (BitArray × Nat × List UInt8)) :=
  match bitarrayFetchChecked b code.1 with
  | none => none
  | some (none, _) => some (.error 5)
  | some (some val, b) =>
    if (off + (code.2 + val)) % 2 ^ bits > size then some (.error 5)
    else
      match huffmanFetchChecked h_dist b with
      | none => none
      | some (sym, b) =>
        if sym < 0 ∨ sym ≥ 30 then some (.error 5)
        else
          match distanceCodes[sym.toNat]? with
          | none => none
          | some dcode =>
            match bitarrayFetchChecked b dcode.1 with
            | none => none
            | some (none, _) => some (.error 5)
            | some (some dval, b) =>
              if dcode.2 + dval > off then some (.error 4)
              else
                match copyChecked (dcode.2 + dval) (code.2 + val) off out with
                | none => none
                | some s => some (.ok (b, s))

/-- The loop of `inflate`. -/
def inflateRun (bits : Nat) (h_code h_dist : Huffman) (size : Nat) :
    Nat → BitArray → Nat → List UInt8 → Outcome
  | 0, _, _, _ => .timeout
  | fuel + 1, b, off, out =>
    match huffmanFetchChecked h_code b with
    | none => .fault
    | some (sym, b) =>
      if sym = 256 then
        if size ≠ off then .returned 1 off off out else .returned 0 size off out
      else if sym < 0 then .returned 3 size off out
      else if sym < 256 then
        if off ≥ size then .returned 4 size off out
        else if off < out.length then
          inflateRun bits h_code h_dist size fuel b (off + 1)
            (out.set off (UInt8.ofNat sym.toNat))
        else .fault
      else if sym ≥ 286 then .returned 5 size off out
      else
        match lengthCodes[(sym - 257).toNat]? with
        | none => .fault
        | some code =>
          match inflateCopyChecked bits h_dist size code b off out with
          | none => .fault
          | some (.error e) => .returned e size off out
          | some (.ok (b, off, out)) => inflateRun bits h_code h_dist size fuel b off out

/-- `inflate`, with the two code descriptions of `inflate_init`. -/
def inflateChecked (bits : Nat) (code_symbols dist_symbols : List Nat) (fuel : Nat) (b : BitArray)
    (out : List UInt8) : Outcome :=
  match huffmanInitChecked code_symbols with
  | none => .fault
  | some (.error _) => .returned 2 out.length 0 out
  | some (.ok h_code) =>
    match huffmanInitChecked dist_symbols with
    | none => .fault
    | some (.error _) => .returned 2 out.length 0 out
    | some (.ok h_dist) =>
      match bitarrayFetchChecked b 1 with
      | none => .fault
      | some (val, b) =>
        if val ≠ some 1 then .returned 2 out.length 0 out
        else
          match bitarrayFetchChecked b 2 with
          | none => .fault
          | some (val, b) =>
            if val ≠ some 1 then .returned 2 out.length 0 out
            else inflateRun bits h_code h_dist out.length fuel b 0 out

/-! ## The output -/

variable {out : List UInt8} {off : Nat}

theorem take_set_self (h : off < out.length) (c : UInt8) :
    (out.set off c).take (off + 1) = out.take off ++ [c] := by
  rw [take_succ_eq_append_getElem (by rw [length_set]; exact h), take_set_of_le
    (le_refl off), getElem_set_self]

theorem copyChecked_eq {dist : Nat} (hdist : 0 < dist) (len : Nat) :
    ∀ {off : Nat} {out : List UInt8}, dist ≤ off → off + len ≤ out.length →
      ∃ out', copyChecked dist len off out = some (off + len, out') ∧ out'.length = out.length ∧
        out'.take (off + len) = copyBytes len dist (out.take off) := by
  induction len with
  | zero => exact fun _ _ => ⟨_, rfl, rfl, rfl⟩
  | succ len ih =>
    intro off out hle hroom
    have hfrom : off - dist < out.length := by omega
    obtain ⟨out', hcopy, hlen, htake⟩ := ih (by omega)
      (show off + 1 + len ≤ (out.set off out[off - dist]).length by rw [length_set]; omega)
    refine ⟨out', ?_, hlen.trans (length_set ..), ?_⟩
    · rw [copyChecked, if_neg (by omega), getElem?_eq_getElem hfrom]
      dsimp only
      rw [if_pos (by omega), hcopy, add_right_comm, add_assoc]
    have hget : (out.take off).getD ((out.take off).length - dist) 0 = out[off - dist] := by
      rw [length_take, min_eq_left (by omega), getD_eq_getElem?_getD,
        getElem?_take, if_pos (by omega), getElem?_eq_getElem hfrom]
      rfl
    rw [copyBytes, hget, ← take_set_self (by omega), ← htake, add_right_comm, add_assoc]

theorem lengthCodes_le : ∀ k, k < 29 → (lengthCodes.getD k (0, 0)).2 +
    2 ^ (lengthCodes.getD k (0, 0)).1 ≤ 259 := by decide

theorem distanceCodes_pos : ∀ k, k < 30 → 0 < (distanceCodes.getD k (0, 0)).2 := by decide

theorem inflateCopyChecked_eq {bits : Nat} {h_dist : Huffman} (hok : TableOk h_dist)
    (hb : Reading b) (hoff : off ≤ out.length) (hword : off + 258 < 2 ^ bits) {code : Nat × Nat}
    (hcode : code.2 + 2 ^ code.1 ≤ 259) :
    (∃ e, inflateCopyChecked bits h_dist out.length code b off out = some (.error e) ∧
        inflateCopy h_dist out.length code b (out.take off) = .error e) ∨
      ∃ b' off' out', inflateCopyChecked bits h_dist out.length code b off out =
          some (.ok (b', off', out')) ∧
        inflateCopy h_dist out.length code b (out.take off) = .ok (b', out'.take off') ∧
        Reading b' ∧ bitsLeft b' ≤ bitsLeft b ∧ off' ≤ off + 258 ∧ off' ≤ out.length ∧
        out'.length = out.length := by
  have hwritten : (out.take off).length = off := by rw [length_take, min_eq_left hoff]
  obtain ⟨hfetch, hreading, hbits⟩ := bitarrayFetchChecked_eq hb code.1
  rw [inflateCopyChecked, inflateCopy, hfetch]
  rcases hval : bitarrayFetch b code.1 with ⟨_ | val, b1⟩ <;> rw [hval] at hreading hbits
  · simp
  obtain ⟨hlt, hleft⟩ := hbits val rfl
  dsimp only at hreading hleft ⊢
  rw [Nat.mod_eq_of_lt (by omega), hwritten]
  by_cases hroom : off + (code.2 + val) > out.length
  · rw [if_pos hroom, if_pos hroom]
    exact .inl ⟨5, rfl, rfl⟩
  rw [if_neg hroom, if_neg hroom]
  obtain ⟨hsym, hreading, hbits⟩ := huffmanFetchChecked_eq hok hreading
  rw [hsym]
  rcases hs : huffmanFetch h_dist b1 with ⟨sym, b2⟩
  rw [hs] at hreading hbits
  dsimp only at hreading hbits ⊢
  by_cases hbad : sym < 0 ∨ sym ≥ 30
  · rw [if_pos hbad, if_pos hbad]
    simp
  rw [if_neg hbad, if_neg hbad]
  have hdcode : distanceCodes[sym.toNat]? = some (distanceCodes.getD sym.toNat (0, 0)) := by
    have hlen : sym.toNat < distanceCodes.length := by
      show sym.toNat < 31
      omega
    rw [getD_eq_getElem?_getD, getElem?_eq_getElem hlen]
    rfl
  have hpos := distanceCodes_pos sym.toNat (by omega)
  rw [hdcode]
  obtain ⟨dcode, hd⟩ : ∃ dcode, dcode = distanceCodes.getD sym.toNat (0, 0) := ⟨_, rfl⟩
  rw [← hd] at hpos ⊢
  dsimp only
  obtain ⟨hfetch, hreading, hbits⟩ := bitarrayFetchChecked_eq hreading dcode.1
  rw [hfetch]
  rcases hdval : bitarrayFetch b2 dcode.1 with ⟨_ | dval, b3⟩ <;> rw [hdval] at hreading hbits
  · exact .inl ⟨5, rfl, rfl⟩
  obtain ⟨-, hleft'⟩ := hbits dval rfl
  dsimp only at hreading hleft' ⊢
  by_cases hfar : dcode.2 + dval > off
  · rw [if_pos hfar, if_pos hfar]
    simp
  rw [if_neg hfar, if_neg hfar]
  obtain ⟨out', hcopy, hlen, htake⟩ := copyChecked_eq (by omega)
    (code.2 + val) (not_lt.1 hfar) (not_lt.1 hroom)
  rw [hcopy]
  exact .inr ⟨b3, off + (code.2 + val), out', rfl, by rw [htake], hreading, by omega, by omega,
    not_lt.1 hroom, hlen⟩

/-- The loop comes to an end, without a fault, and computes what `inflateLoop`
does. Each round takes a bit, and writes 258 bytes at most. -/
theorem inflateRun_eq {bits total : Nat} {h_code h_dist : Huffman} (hcode : TableOk h_code)
    (hdist : TableOk h_dist) (fuel : Nat) : ∀ {b : BitArray} {off : Nat} {out : List UInt8},
    Reading b → off ≤ out.length → off + 258 * bitsLeft b ≤ total →
      (total + 258 < 2 ^ bits ∨ out.length + 258 < 2 ^ bits) → bitsLeft b < fuel →
      ∃ value size off' out', inflateRun bits h_code h_dist out.length fuel b off out =
          .returned value size off' out' ∧ out'.length = out.length ∧
        inflateLoop h_code h_dist out.length fuel b (out.take off) =
          some (value, out'.take off') := by
  induction fuel with
  | zero => omega
  | succ fuel ih =>
    intro b off out hb hoff htotal hword hfuel
    have hwritten : (out.take off).length = off := by rw [length_take, min_eq_left hoff]
    obtain ⟨hsym, hreading, hbits⟩ := huffmanFetchChecked_eq hcode hb
    rw [inflateRun, inflateLoop, hsym]
    rcases hs : huffmanFetch h_code b with ⟨sym, b1⟩
    rw [hs] at hreading hbits
    dsimp only at hreading hbits ⊢
    rw [hwritten]
    by_cases hend : sym = 256
    · rw [if_pos hend, if_pos hend]
      by_cases hsize : out.length ≠ off
      · rw [if_pos hsize, if_pos hsize]
        simp
      · rw [if_neg hsize, if_neg hsize]
        exact ⟨0, out.length, off, out, rfl, rfl, rfl⟩
    rw [if_neg hend, if_neg hend]
    by_cases hneg : sym < 0
    · rw [if_pos hneg, if_pos hneg]
      simp
    rw [if_neg hneg, if_neg hneg]
    by_cases hlit : sym < 256
    · rw [if_pos hlit, if_pos hlit]
      by_cases hfull : off ≥ out.length
      · rw [if_pos hfull, if_pos hfull]
        simp
      rw [if_neg hfull, if_neg hfull, if_pos (not_le.1 hfull),
        ← take_set_self (not_le.1 hfull)]
      obtain ⟨value, size, off', out', h1, h2, h3⟩ := ih hreading
        (show off + 1 ≤ (out.set off (UInt8.ofNat sym.toNat)).length by
          rw [length_set]
          omega)
        (by omega) (by rw [length_set]; exact hword) (by omega)
      rw [length_set] at h1 h2 h3
      exact ⟨value, size, off', out', h1, h2, h3⟩
    rw [if_neg hlit, if_neg hlit]
    by_cases hbig : sym ≥ 286
    · rw [if_pos hbig, if_pos hbig]
      exact ⟨5, out.length, off, out, rfl, rfl, rfl⟩
    rw [if_neg hbig, if_neg hbig]
    have hlcode : lengthCodes[(sym - 257).toNat]? =
        some (lengthCodes.getD (sym - 257).toNat (0, 0)) := by
      have hlen : (sym - 257).toNat < lengthCodes.length := by
        show (sym - 257).toNat < 29
        omega
      rw [getD_eq_getElem?_getD, getElem?_eq_getElem hlen]
      rfl
    have hle := lengthCodes_le (sym - 257).toNat (by omega)
    rw [hlcode]
    dsimp only
    have hroom : off + 258 < 2 ^ bits := by omega
    rcases inflateCopyChecked_eq hdist hreading hoff hroom hle with
      ⟨e, hchecked, hcopy⟩ | ⟨b2, off2, out2, hchecked, hcopy, hread2, hleft, hgrow, hoff2, hlen⟩
    · rw [hchecked, hcopy]
      exact ⟨e, out.length, off, out, rfl, rfl, rfl⟩
    rw [hchecked, hcopy]
    obtain ⟨value, size, off', out', h1, h2, h3⟩ := ih hread2
      (show off2 ≤ out2.length by omega) (by omega) (by rw [hlen]; exact hword) (by omega)
    rw [hlen] at h1 h2 h3
    exact ⟨value, size, off', out', h1, h2, h3⟩

/-- The input and the output buffer of a call are two objects in an address
space of `size_t`. -/
structure Objects where
  bits : Nat
  (input output : List UInt8)
  word : 32 ≤ bits
  fits : input.length + output.length ≤ 2 ^ bits

theorem inflateChecked_returns (o : Objects) (code_symbols dist_symbols : List Nat) {fuel : Nat}
    (hfuel : 8 * o.input.length < fuel) :
    ∃ value size off out, inflateChecked o.bits code_symbols dist_symbols fuel
        (bitarrayInit o.input) o.output = .returned value size off out ∧
      out.length = o.output.length ∧
      inflateWith (huffmanInit code_symbols) (huffmanInit dist_symbols) fuel
        (bitarrayInit o.input) o.output.length = some (value, out.take off) := by
  rw [inflateChecked, inflateWith.eq_def, huffmanInitChecked_eq, huffmanInitChecked_eq]
  rcases hcode : huffmanInit code_symbols with e | h_code
  · simp
  rcases hdist : huffmanInit dist_symbols with e | h_dist
  · exact ⟨2, o.output.length, 0, o.output, rfl, rfl, rfl⟩
  obtain ⟨hfetch, hreading, hbits⟩ := bitarrayFetchChecked_eq (bitarrayInit_input o.input).1 1
  rw [hfetch]
  rcases hval : bitarrayFetch (bitarrayInit o.input) 1 with ⟨val, b1⟩
  rw [hval] at hreading hbits
  dsimp only at hreading hbits ⊢
  by_cases h1 : val ≠ some 1
  · rw [if_pos h1, if_pos h1]
    simp
  rw [if_neg h1, if_neg h1]
  obtain ⟨-, hleft1⟩ := hbits 1 (by simpa using h1)
  obtain ⟨hfetch, hreading, hbits⟩ := bitarrayFetchChecked_eq hreading 2
  rw [hfetch]
  rcases hval : bitarrayFetch b1 2 with ⟨val, b2⟩
  rw [hval] at hreading hbits
  dsimp only at hreading hbits ⊢
  by_cases h2 : val ≠ some 1
  · rw [if_pos h2, if_pos h2]
    exact ⟨2, o.output.length, 0, o.output, rfl, rfl, rfl⟩
  rw [if_neg h2, if_neg h2]
  obtain ⟨-, hleft2⟩ := hbits 1 (by simpa using h2)
  have hstart : bitsLeft (bitarrayInit o.input) = 8 * o.input.length := zero_add _
  have hword := o.fits
  have hpow : 2 ^ 32 ≤ 2 ^ o.bits := Nat.pow_le_pow_right (by decide) o.word
  -- an output that large needs an input of more than 258 bytes, for which there is no room
  have hno : 258 * (8 * o.input.length) + 258 < 2 ^ o.bits ∨ o.output.length + 258 < 2 ^ o.bits := by
    omega
  exact inflateRun_eq (huffmanInit_ok hcode) (huffmanInit_ok hdist) fuel hreading (Nat.zero_le _)
    (by omega) hno (by omega)

/-- **`inflate` is safe.** No lengths make `huffman_init` leave its arrays, and no
input makes `huffman_fetch` leave a table that was built; and for every input,
every buffer and all code descriptions, `inflate` returns without a fault. -/
theorem inflate_safe :
    (∀ symbols, ∃ r, huffmanInitChecked symbols = some r) ∧
      (∀ symbols h, huffmanInitChecked symbols = some (.ok h) →
        ∀ b, Reading b → ∃ r, huffmanFetchChecked h b = some r) ∧
      ∀ (o : Objects) (code_symbols dist_symbols : List Nat) (fuel : Nat),
        8 * o.input.length < fuel → ∃ value size off out,
          inflateChecked o.bits code_symbols dist_symbols fuel (bitarrayInit o.input) o.output =
            .returned value size off out ∧ out.length = o.output.length := by
  refine ⟨fun symbols => ⟨_, huffmanInitChecked_eq symbols⟩, fun symbols h hinit b hb => ?_,
    fun o code_symbols dist_symbols fuel hfuel => ?_⟩
  · rw [huffmanInitChecked_eq] at hinit
    exact ⟨_, (huffmanFetchChecked_eq (huffmanInit_ok (some.inj hinit)) hb).1⟩
  · obtain ⟨value, size, off, out, h, hlen, -⟩ :=
      inflateChecked_returns o code_symbols dist_symbols hfuel
    exact ⟨value, size, off, out, h, hlen⟩

/-- Three bytes of input, and too many words of one bit. -/
theorem inflate_safe_three :
    (∃ r, huffmanInitChecked [1, 1, 1] = some r) ∧ huffmanInit [1, 1, 1] = .error (-2) ∧
      ∃ value size off out, inflateChecked 64 codeSymbols distSymbols 25
        (bitarrayInit [75, 4, 0]) [0] = .returned value size off out ∧ out.length = 1 :=
  ⟨inflate_safe.1 [1, 1, 1], by decide,
    inflate_safe.2.2 ⟨64, [75, 4, 0], [0], by decide, by decide⟩ codeSymbols distSymbols 25
      (by decide)⟩

end Dancy.Zip
