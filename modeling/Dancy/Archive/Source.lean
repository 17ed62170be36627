import Dancy.Archive.RoundTrip

/-!
# Sources of bits

`bitarray_fetch`, `huffman_fetch` and `inflate` take one bit after another,
and the callback of a bit array may give it more data on the way. Here the
array is a parameter: `next` gives the next bit, or none. With `nextBit`
these are the functions on a `BitArray`.
-/

namespace Dancy.Zip

open Dancy.Lib List Option

section Source

variable {σ : Type} (next : σ → Option Bool × σ)

def fetchLoopFrom : Nat → Nat → Nat → σ → Option Nat × σ
  | 0, _, ret, s => (some (ret &&& 0x7FFFFFFF), s)
  | n + 1, bit, ret, s =>
    match next s with
    | (some x, s) => fetchLoopFrom n (bit + 1) (ret ||| (x.toNat <<< bit)) s
    | (none, s) => (none, s)

/-- `bitarray_fetch`; `none` is `-1`. -/
def fetchFrom (bits : Nat) (s : σ) : Option Nat × σ := fetchLoopFrom next bits 0 0 s

def symbolFrom (h : Huffman) : Nat → Nat → Nat → Nat → Nat → σ → Int × σ
  | 0, _, _, _, _, s => (-2, s)
  | left + 1, i, base, off, val, s =>
    match next s with
    | (none, s) => (-1, s)
    | (some x, s) =>
      let len := h.lengths.getD i 0
      let val := (val <<< 1) ||| x.toNat
      if val < base + len then (h.symbols.getD (off + (val - base)) 0, s)
      else symbolFrom h left (i + 1) ((base + len) <<< 1) (off + len) val s

/-- `huffman_fetch`. -/
def huffmanFrom (h : Huffman) (s : σ) : Int × σ := symbolFrom next h 15 1 0 0 0 s

/-- A length whose code was read, and its distance. -/
def copyFrom (h_dist : Huffman) (size : Nat) (code : Nat × Nat) (s : σ) (out : List UInt8) :
    Except Nat (List UInt8) × σ :=
  match fetchFrom next code.1 s with
  | (none, s) => (.error 5, s)
  | (some val, s) =>
    let len := code.2 + val
    if out.length + len > size then (.error 5, s)
    else
      match huffmanFrom next h_dist s with
      | (sym, s) =>
        if sym < 0 ∨ sym ≥ 30 then (.error 5, s)
        else
          let code := distanceCodes.getD sym.toNat (0, 0)
          match fetchFrom next code.1 s with
          | (none, s) => (.error 5, s)
          | (some val, s) =>
            let dist := code.2 + val
            if dist > out.length then (.error 4, s) else (.ok (copyBytes len dist out), s)

/-- What an inflating reader leaves: what is returned, the bytes that were
written, and the source. -/
structure Inflated (σ : Type) where
  ret : Nat
  out : List UInt8
  source : σ

/-- The loop of `inflate`; `none` is out of fuel. -/
def inflateLoopFrom (h_code h_dist : Huffman) (size : Nat) : Nat → σ → List UInt8 →
    Option (Inflated σ)
  | 0, _, _ => none
  | fuel + 1, s, out =>
    match huffmanFrom next h_code s with
    | (sym, s) =>
      if sym = 256 then some ⟨if size ≠ out.length then 1 else 0, out, s⟩
      else if sym < 0 then some ⟨3, out, s⟩
      else if sym < 256 then
        if out.length ≥ size then some ⟨4, out, s⟩
        else inflateLoopFrom h_code h_dist size fuel s (out ++ [UInt8.ofNat sym.toNat])
      else if sym ≥ 286 then some ⟨5, out, s⟩
      else
        match copyFrom next h_dist size (lengthCodes.getD (sym - 257).toNat (0, 0)) s out with
        | (.error e, s) => some ⟨e, out, s⟩
        | (.ok out, s) => inflateLoopFrom h_code h_dist size fuel s out

/-- The body of `inflate`, after `inflate_init`. -/
def inflateWithFrom (code dist : Except Int Huffman) (fuel : Nat) (s : σ) (size : Nat) :
    Option (Inflated σ) :=
  match code, dist with
  | .ok h_code, .ok h_dist =>
    match fetchFrom next 1 s with
    | (val, s) =>
      if val ≠ some 1 then some ⟨2, [], s⟩
      else
        match fetchFrom next 2 s with
        | (val, s) =>
          if val ≠ some 1 then some ⟨2, [], s⟩
          else inflateLoopFrom next h_code h_dist size fuel s []
  | _, _ => some ⟨2, [], s⟩

/-- `inflate`, into a buffer of the given size. -/
def inflateFrom (fuel : Nat) (s : σ) (size : Nat) : Option (Inflated σ) :=
  inflateWithFrom next (huffmanInit codeSymbols) (huffmanInit distSymbols) fuel s size

end Source

/-! ## A source that gives the bits of a bit array -/

theorem inflateCopy_error {h_dist : Huffman} {size e : Nat} {code : Nat × Nat} {b : BitArray}
    {out : List UInt8} (heq : inflateCopy h_dist size code b out = .error e) : e ≠ 0 := by
  unfold inflateCopy at heq
  split at heq
  · obtain rfl := Except.error.inj heq
    decide
  simp only at heq
  iterate 3
    split at heq
    · obtain rfl := Except.error.inj heq
      decide
  · split at heq
    · obtain rfl := Except.error.inj heq
      decide
    · cases heq

section Follows

variable {σ : Type} {next : σ → Option Bool × σ} {R : BitArray → σ → Prop}

/-- A source gives each bit that a bit array gives, and both go on together. -/
def Follows (next : σ → Option Bool × σ) (R : BitArray → σ → Prop) : Prop :=
  ∀ ⦃b b' : BitArray⦄ ⦃s : σ⦄ ⦃x : Bool⦄, R b s → nextBit b = (some x, b') →
    ∃ s', next s = (some x, s') ∧ R b' s'

theorem fetchLoopFrom_follows (hR : Follows next R) (n : Nat) : ∀ {bit ret v : Nat}
    {b b' : BitArray} {s : σ}, R b s → fetchLoop n bit ret b = (some v, b') →
      ∃ s', fetchLoopFrom next n bit ret s = (some v, s') ∧ R b' s' := by
  induction n with
  | zero =>
    intro bit ret v b b' s h heq
    obtain ⟨hv, rfl⟩ := Prod.mk.inj heq
    exact ⟨s, Prod.ext hv rfl, h⟩
  | succ n ih =>
    intro bit ret v b b' s h heq
    rw [fetchLoop] at heq
    split at heq
    · rename_i x b1 hbit
      obtain ⟨s1, hnext, h1⟩ := hR h hbit
      rw [fetchLoopFrom, hnext]
      exact ih h1 heq
    · cases (Prod.mk.inj heq).1

variable {b b' : BitArray} {s : σ}

section

variable (hR : Follows next R)
include hR

theorem fetchFrom_follows {n v : Nat} (h : R b s) (heq : bitarrayFetch b n = (some v, b')) :
    ∃ s', fetchFrom next n s = (some v, s') ∧ R b' s' :=
  fetchLoopFrom_follows hR n h heq

theorem symbolFrom_follows (c : Huffman) (left : Nat) :
    ∀ {i base off val : Nat} {sym : Int} {b b' : BitArray} {s : σ}, R b s →
      fetchSymbol c left i base off val b = (sym, b') → 0 ≤ sym →
        ∃ s', symbolFrom next c left i base off val s = (sym, s') ∧ R b' s' := by
  induction left with
  | zero =>
    intro i base off val sym b b' s h heq hsym
    have hneg := (Prod.mk.inj heq).1
    omega
  | succ left ih =>
    intro i base off val sym b b' s h heq hsym
    rw [fetchSymbol] at heq
    split at heq
    · have hneg := (Prod.mk.inj heq).1
      omega
    rename_i x b1 hbit
    obtain ⟨s1, hnext, h1⟩ := hR h hbit
    rw [symbolFrom, hnext]
    simp only at heq ⊢
    by_cases hlt : (val <<< 1) ||| x.toNat < base + c.lengths.getD i 0
    · rw [if_pos hlt] at heq ⊢
      obtain ⟨hval, rfl⟩ := Prod.mk.inj heq
      exact ⟨s1, Prod.ext hval rfl, h1⟩
    · rw [if_neg hlt] at heq ⊢
      exact ih h1 heq hsym

theorem huffmanFrom_follows {c : Huffman} {sym : Int} (h : R b s)
    (heq : huffmanFetch c b = (sym, b')) (hsym : 0 ≤ sym) :
    ∃ s', huffmanFrom next c s = (sym, s') ∧ R b' s' :=
  symbolFrom_follows hR c 15 h heq hsym

theorem copyFrom_follows {h_dist : Huffman} {size : Nat} {code : Nat × Nat} {out out' : List UInt8}
    (h : R b s) (heq : inflateCopy h_dist size code b out = .ok (b', out')) :
    ∃ s', copyFrom next h_dist size code s out = (.ok out', s') ∧ R b' s' := by
  unfold inflateCopy at heq
  unfold copyFrom
  split at heq
  · cases heq
  rename_i val b1 hfetch
  obtain ⟨s1, hval, h1⟩ := fetchFrom_follows hR h hfetch
  rw [hval]
  simp only at heq ⊢
  by_cases hroom : out.length + (code.2 + val) > size
  · rw [if_pos hroom] at heq
    cases heq
  rw [if_neg hroom] at heq ⊢
  cases hsym : huffmanFetch h_dist b1 with
  | mk sym b2 =>
    rw [hsym] at heq
    by_cases hbad : sym < 0 ∨ sym ≥ 30
    · rw [if_pos hbad] at heq
      cases heq
    rw [if_neg hbad] at heq
    obtain ⟨s2, hword, h2⟩ := huffmanFrom_follows hR h1 hsym (by omega)
    rw [hword]
    rw [if_neg hbad]
    split at heq
    · cases heq
    rename_i dval b3 hdist
    obtain ⟨s3, hdval, h3⟩ := fetchFrom_follows hR h2 hdist
    rw [hdval]
    simp only at heq ⊢
    by_cases hback : (distanceCodes.getD sym.toNat (0, 0)).2 + dval > out.length
    · rw [if_pos hback] at heq
      cases heq
    · rw [if_neg hback] at heq ⊢
      obtain ⟨rfl, rfl⟩ := Prod.mk.inj (Except.ok.inj heq)
      exact ⟨s3, rfl, h3⟩

theorem inflateLoopFrom_follows (h_code h_dist : Huffman) (size fuel : Nat) :
    ∀ {b : BitArray} {s : σ} {out out' : List UInt8}, R b s →
      inflateLoop h_code h_dist size fuel b out = some (0, out') →
        ∃ b' s', inflateLoopFrom next h_code h_dist size fuel s out = some ⟨0, out', s'⟩ ∧
          R b' s' := by
  induction fuel with
  | zero =>
    intro b s out out' h heq
    cases heq
  | succ fuel ih =>
    intro b s out out' h heq
    have hwrong : ∀ {n : Nat}, n ≠ 0 → some (n, out) ≠ some (0, out') := fun hn he =>
      hn (Prod.mk.inj (some.inj he)).1
    rw [inflateLoop] at heq
    cases hsym : huffmanFetch h_code b with
    | mk sym b1 =>
      rw [hsym] at heq
      simp only at heq
      by_cases hend : sym = 256
      · obtain ⟨s1, hword, h1⟩ := huffmanFrom_follows hR h hsym (by omega)
        rw [if_pos hend] at heq
        rw [inflateLoopFrom, hword]
        simp only
        rw [if_pos hend]
        obtain ⟨hret, rfl⟩ := Prod.mk.inj (some.inj heq)
        rw [hret]
        exact ⟨b1, s1, rfl, h1⟩
      rw [if_neg hend] at heq
      by_cases hneg : sym < 0
      · rw [if_pos hneg] at heq
        cases heq
      rw [if_neg hneg] at heq
      obtain ⟨s1, hword, h1⟩ := huffmanFrom_follows hR h hsym (by omega)
      rw [inflateLoopFrom, hword]
      simp only
      rw [if_neg hend, if_neg hneg]
      by_cases hlit : sym < 256
      · rw [if_pos hlit] at heq ⊢
        by_cases hfull : out.length ≥ size
        · rw [if_pos hfull] at heq
          exact absurd heq (hwrong (by decide))
        · rw [if_neg hfull] at heq ⊢
          exact ih h1 heq
      rw [if_neg hlit] at heq ⊢
      by_cases hbad : sym ≥ 286
      · rw [if_pos hbad] at heq
        cases heq
      rw [if_neg hbad] at heq ⊢
      split at heq
      · rename_i e hcopy
        exact absurd heq (hwrong (inflateCopy_error hcopy))
      · rename_i b2 out2 hcopy
        obtain ⟨s2, hcopied, h2⟩ := copyFrom_follows hR h1 hcopy
        rw [hcopied]
        exact ih h2 heq

/-- What a bit array inflates to, a source that gives its bits inflates to. -/
theorem inflateFrom_follows {fuel size : Nat} {out : List UInt8} (h : R b s)
    (heq : inflate fuel b size = some (0, out)) :
    ∃ b' s', inflateFrom next fuel s size = some ⟨0, out, s'⟩ ∧ R b' s' := by
  have hwrong : some (2, []) ≠ some (0, out) := fun he =>
    Nat.succ_ne_zero 1 (Prod.mk.inj (some.inj he)).1
  rw [inflate, huffmanInit_code, huffmanInit_dist, inflateWith] at heq
  rw [inflateFrom, huffmanInit_code, huffmanInit_dist, inflateWithFrom]
  cases hone : bitarrayFetch b 1 with
  | mk one b1 =>
    rw [hone] at heq
    simp only at heq
    by_cases hbad : one ≠ some 1
    · rw [if_pos hbad] at heq
      cases heq
    obtain rfl := not_not.mp hbad
    obtain ⟨s1, hval, h1⟩ := fetchFrom_follows hR h hone
    rw [hval]
    simp only
    cases htwo : bitarrayFetch b1 2 with
    | mk two b2 =>
      rw [htwo] at heq
      by_cases hbad' : two ≠ some 1
      · rw [if_pos hbad'] at heq
        cases heq
      obtain rfl := not_not.mp hbad'
      obtain ⟨s2, hval2, h2⟩ := fetchFrom_follows hR h1 htwo
      rw [hval2]
      exact inflateLoopFrom_follows hR codeHuffman distHuffman size fuel h2 heq

end

end Follows

/-- The bits that are ahead of a source, while it is in order. -/
structure Streams {σ : Type} (next : σ → Option Bool × σ) (ok : σ → Prop)
    (input : σ → List Bool) : Prop where
  cons : ∀ {s : σ} {x : Bool} {r : List Bool}, ok s → input s = x :: r →
    ∃ s', next s = (some x, s') ∧ ok s' ∧ input s' = r

theorem nextBit_some {b b' : BitArray} {x : Bool} (h : Reading b)
    (heq : nextBit b = (some x, b')) : Reading b' ∧ b.input = x :: b'.input := by
  cases hin : b.input with
  | cons y r =>
    obtain ⟨b1, hbit, h1, hin1⟩ := nextBit_cons h hin
    rw [hbit] at heq
    obtain ⟨hx, rfl⟩ := Prod.mk.inj heq
    exact ⟨h1, by rw [some.inj hx, hin1]⟩
  | nil =>
    -- no bit and no byte is left
    have hlen := congrArg length hin
    simp only [BitArray.input, length_append, length_bitsOf, length_bitsOfBytes,
      length_take, length_drop, length_nil] at hlen
    unfold Reading at h
    have hstate : b.state0 = 0 := by omega
    have hsize : b.size = 0 := by omega
    rw [nextBit, if_neg (not_not_intro hstate), if_neg (not_not_intro hsize)] at heq
    cases (Prod.mk.inj heq).1

section Streams

variable {σ : Type} {next : σ → Option Bool × σ} {ok : σ → Prop} {input : σ → List Bool}

/-- The bits of a bit array are the first ones of a source, and `rest` follows. -/
def Ahead (ok : σ → Prop) (input : σ → List Bool) (rest : List Bool) (b : BitArray) (s : σ) : Prop :=
  Reading b ∧ ok s ∧ input s = b.input ++ rest

section

variable (h : Streams next ok input)
include h

theorem Streams.follows (rest : List Bool) : Follows next (Ahead ok input rest) := by
  rintro b b' s x ⟨hb, hs, hin⟩ hbit
  obtain ⟨hb', hbits⟩ := nextBit_some hb hbit
  rw [hbits, cons_append] at hin
  obtain ⟨s', hnext, hs', hin'⟩ := h.cons hs hin
  exact ⟨s', hnext, hb', hs', hin'⟩

/-- The source follows a bit array that holds just these bits. -/
theorem Streams.fetch {s : σ} (hs : ok s) {n v : Nat} {r : List Bool}
    (hin : input s = bitsOf n v ++ r) (hv : v < 2 ^ n) (hmask : v < 2 ^ 31) :
    ∃ s', fetchFrom next n s = (some v, s') ∧ ok s' ∧ input s' = r := by
  have hbits : BitArray.input ⟨[], 0, 0, n, v, 0⟩ = bitsOf n v ++ [] := rfl
  obtain ⟨b', hfetch, -, hin'⟩ := bitarrayFetch_bitsOf (Nat.zero_le _) hbits hv hmask
  obtain ⟨s', hfrom, -, hs', hrest⟩ := fetchFrom_follows (h.follows r)
    ⟨Nat.zero_le _, hs, by rw [hin, hbits, append_nil]⟩ hfetch
  exact ⟨s', hfrom, hs', by rw [hrest, hin', nil_append]⟩

theorem Streams.inflate {s : σ} (hs : ok s) {rest : List Bool} {malloc : Nat → Option (Nat → UInt8)}
    {data packed : List UInt8} (hpacked : deflateCompress malloc data = (0, packed))
    (hin : input s = bitsOfBytes packed ++ rest) {fuel : Nat} (hfuel : 8 * packed.length < fuel) :
    ∃ s', inflateFrom next fuel s data.length = some ⟨0, data, s'⟩ ∧ ok s' := by
  obtain ⟨hb, hbits⟩ := bitarrayInit_input packed
  obtain ⟨b', s', hinflate, -, hs', -⟩ := inflateFrom_follows (h.follows rest)
    ⟨hb, hs, by rw [hbits, hin]⟩ (inflate_deflateCompress hpacked hfuel)
  exact ⟨s', hinflate, hs'⟩

end

end Streams

/-! ## What reading does to a source -/

section Takes

variable {σ : Type} (next : σ → Option Bool × σ)

def Takes : σ → σ → Prop :=
  Relation.ReflTransGen fun s s' => (next s).2 = s'

theorem takes_next (s : σ) : Takes next s (next s).2 := .single rfl

theorem fetchLoopFrom_takes (n : Nat) : ∀ (bit ret : Nat) (s : σ),
    Takes next s (fetchLoopFrom next n bit ret s).2 := by
  induction n with
  | zero => exact fun _ _ _ => .refl
  | succ n ih =>
    intro bit ret s
    have hbit := takes_next next s
    rw [fetchLoopFrom]
    split
    · rename_i x s1 hnext
      rw [hnext] at hbit
      exact hbit.trans (ih _ _ s1)
    · rename_i s1 hnext
      rw [hnext] at hbit
      exact hbit

theorem fetchFrom_takes (n : Nat) (s : σ) : Takes next s (fetchFrom next n s).2 :=
  fetchLoopFrom_takes next n 0 0 s

theorem symbolFrom_takes (c : Huffman) (left : Nat) : ∀ (i base off val : Nat) (s : σ),
    Takes next s (symbolFrom next c left i base off val s).2 := by
  induction left with
  | zero => exact fun _ _ _ _ _ => .refl
  | succ left ih =>
    intro i base off val s
    have hbit := takes_next next s
    rw [symbolFrom]
    split
    · rename_i s1 hnext
      rw [hnext] at hbit
      exact hbit
    rename_i x s1 hnext
    rw [hnext] at hbit
    simp only
    split
    · exact hbit
    · exact hbit.trans (ih _ _ _ _ s1)

theorem huffmanFrom_takes (c : Huffman) (s : σ) : Takes next s (huffmanFrom next c s).2 :=
  symbolFrom_takes next c 15 1 0 0 0 s

theorem copyFrom_takes (h_dist : Huffman) (size : Nat) (code : Nat × Nat) (s : σ)
    (out : List UInt8) : Takes next s (copyFrom next h_dist size code s out).2 := by
  have h1 := fetchFrom_takes next code.1 s
  unfold copyFrom
  cases hval : fetchFrom next code.1 s with
  | mk val s1 =>
    rw [hval] at h1
    cases val with
    | none => exact h1
    | some val =>
      simp only
      split
      · exact h1
      have h2 := huffmanFrom_takes next h_dist s1
      cases hsym : huffmanFrom next h_dist s1 with
      | mk sym s2 =>
        rw [hsym] at h2
        split
        · exact h1.trans h2
        have h3 := fetchFrom_takes next (distanceCodes.getD sym.toNat (0, 0)).1 s2
        cases hdist : fetchFrom next (distanceCodes.getD sym.toNat (0, 0)).1 s2 with
        | mk dval s3 =>
          rw [hdist] at h3
          cases dval with
          | none => exact (h1.trans h2).trans h3
          | some dval =>
            simp only
            split
            all_goals exact (h1.trans h2).trans h3

theorem inflateLoopFrom_takes (h_code h_dist : Huffman) (size fuel : Nat) : ∀ (s : σ)
    (out : List UInt8) {r : Inflated σ},
      inflateLoopFrom next h_code h_dist size fuel s out = some r → Takes next s r.source := by
  induction fuel with
  | zero =>
    intro s out r heq
    cases heq
  | succ fuel ih =>
    intro s out r heq
    have h1 := huffmanFrom_takes next h_code s
    rw [inflateLoopFrom] at heq
    cases hsym : huffmanFrom next h_code s with
    | mk sym s1 =>
      rw [hsym] at heq h1
      simp only at heq h1
      have hstop : ∀ {e : Nat}, some (Inflated.mk e out s1) = some r → Takes next s r.source :=
        fun he => some.inj he ▸ h1
      split at heq
      · exact hstop heq
      split at heq
      · exact hstop heq
      split at heq
      · split at heq
        · exact hstop heq
        · exact h1.trans (ih s1 _ heq)
      split at heq
      · exact hstop heq
      have h2 := copyFrom_takes next h_dist size (lengthCodes.getD (sym - 257).toNat (0, 0)) s1 out
      split at heq
      · rename_i e s2 hcopy
        rw [hcopy] at h2
        exact some.inj heq ▸ h1.trans h2
      · rename_i out2 s2 hcopy
        rw [hcopy] at h2
        exact (h1.trans h2).trans (ih s2 _ heq)

theorem inflateFrom_takes (fuel size : Nat) (s : σ) {r : Inflated σ}
    (heq : inflateFrom next fuel s size = some r) : Takes next s r.source := by
  rw [inflateFrom, huffmanInit_code, huffmanInit_dist, inflateWithFrom] at heq
  have h1 := fetchFrom_takes next 1 s
  cases hone : fetchFrom next 1 s with
  | mk one s1 =>
    rw [hone] at heq h1
    simp only at heq
    split at heq
    · exact some.inj heq ▸ h1
    have h2 := fetchFrom_takes next 2 s1
    cases htwo : fetchFrom next 2 s1 with
    | mk two s2 =>
      rw [htwo] at heq h2
      split at heq
      · exact some.inj heq ▸ h1.trans h2
      · exact (h1.trans h2).trans (inflateLoopFrom_takes next _ _ size fuel s2 [] heq)

structure Spends (m : σ → Nat) : Prop where
  le : ∀ s, m (next s).2 ≤ m s
  lt : ∀ {s s' : σ} {x : Bool}, next s = (some x, s') → m s' < m s

variable {next} {m : σ → Nat}

variable {s s' : σ}

section

variable (hm : Spends next m)
include hm

theorem Takes.spends (h : Takes next s s') : m s' ≤ m s := by
  induction h with
  | refl => rfl
  | tail _ hnext ih => exact le_trans (hnext ▸ hm.le _) ih

theorem fetchFrom_spends {n v : Nat} (heq : fetchFrom next (n + 1) s = (some v, s')) :
    m s' < m s := by
  rw [fetchFrom, fetchLoopFrom] at heq
  split at heq
  · rename_i x s1 hnext
    have hrest := (fetchLoopFrom_takes next n 1 (0 ||| (x.toNat <<< 0)) s1).spends hm
    rw [heq] at hrest
    exact lt_of_le_of_lt hrest (hm.lt hnext)
  · cases (Prod.mk.inj heq).1

theorem huffmanFrom_spends {c : Huffman} {sym : Int} (heq : huffmanFrom next c s = (sym, s'))
    (hsym : 0 ≤ sym) : m s' < m s := by
  rw [huffmanFrom, symbolFrom] at heq
  split at heq
  · have hneg := (Prod.mk.inj heq).1
    omega
  rename_i x s1 hnext
  have hlt := hm.lt hnext
  simp only at heq
  split at heq
  · exact (Prod.mk.inj heq).2 ▸ hlt
  · have hrest := (symbolFrom_takes next c 14 2 ((0 + c.lengths.getD 1 0) <<< 1)
      (0 + c.lengths.getD 1 0) (0 <<< 1 ||| x.toNat) s1).spends hm
    rw [heq] at hrest
    exact lt_of_le_of_lt hrest hlt

theorem inflateLoopFrom_some (h_code h_dist : Huffman) (size fuel : Nat) :
    ∀ (s : σ) (out : List UInt8), m s < fuel →
      ∃ r, inflateLoopFrom next h_code h_dist size fuel s out = some r := by
  induction fuel with
  | zero => omega
  | succ fuel ih =>
    intro s out hfuel
    rw [inflateLoopFrom]
    cases hsym : huffmanFrom next h_code s with
    | mk sym s1 =>
      simp only
      split
      · exact ⟨_, rfl⟩
      split
      · exact ⟨_, rfl⟩
      rename_i hneg
      have hlt := huffmanFrom_spends hm hsym (Int.not_lt.mp hneg)
      split
      · split
        · exact ⟨_, rfl⟩
        · exact ih s1 _ (by omega)
      split
      · exact ⟨_, rfl⟩
      have h2 := (copyFrom_takes next h_dist size (lengthCodes.getD (sym - 257).toNat (0, 0)) s1
        out).spends hm
      split
      · exact ⟨_, rfl⟩
      · rename_i out2 s2 hcopy
        rw [hcopy] at h2
        exact ih s2 _ (lt_of_le_of_lt h2 (by omega))

theorem inflateFrom_some {fuel : Nat} (size : Nat) (hfuel : m s < fuel) :
    ∃ r, inflateFrom next fuel s size = some r := by
  rw [inflateFrom, huffmanInit_code, huffmanInit_dist, inflateWithFrom]
  have h1 := (fetchFrom_takes next 1 s).spends hm
  cases hone : fetchFrom next 1 s with
  | mk one s1 =>
    rw [hone] at h1
    simp only
    split
    · exact ⟨_, rfl⟩
    have h2 := (fetchFrom_takes next 2 s1).spends hm
    cases htwo : fetchFrom next 2 s1 with
    | mk two s2 =>
      rw [htwo] at h2
      split
      · exact ⟨_, rfl⟩
      · exact inflateLoopFrom_some hm _ _ size fuel s2 []
          (lt_of_le_of_lt (le_trans h2 h1) hfuel)

end

end Takes

end Dancy.Zip
