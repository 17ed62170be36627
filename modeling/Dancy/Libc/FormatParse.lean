import Dancy.Libc.FormatStandard
import Dancy.Libc.FormatText

/-!
# Reading a format

The code reads of a directive what the standard reads, but for widths and
precisions, which are `unsigned`. A whole format stores the texts of its
directives one after the other, cut at `n`.
-/

namespace Dancy.Libc.Format

open Dancy.Lib List

/-! ## One directive -/

def Directive.spec (d : Directive) (f : Field) : Spec where
  flags := f.flags
  fieldWidth := match d.width with
    | .digits _ => f.width % 2 ^ 32
    | .star => min f.width (2 ^ 31 - 1)
  precision := match d.precision, f.precision with
    | some (.digits _), some p => p % 2 ^ 32
    | _, some p => p
    | _, none => 0
  precisionSet := f.precision.isSome
  length := d.length
  conv := d.conv.char

def endsFlags (c : UInt8) : Bool :=
  c ≠ 0 && c ≠ ch '-' && c ≠ ch '+' && c ≠ ch ' ' && c ≠ ch '0' && c ≠ ch '#' && c ≠ ch '%'

theorem takeFlags_end {c : UInt8} (h : endsFlags c) (f : Flags) (fmt : List UInt8) :
    takeFlags f (c :: fmt) = some (f, c, fmt) := by
  simp only [endsFlags, Bool.and_eq_true, decide_eq_true_eq] at h
  obtain ⟨⟨⟨⟨⟨⟨h0, h1⟩, h2⟩, h3⟩, h4⟩, h5⟩, -⟩ := h
  rw [takeFlags, if_neg h0, if_neg h1, if_neg h2, if_neg h3, if_neg h4, if_neg h5]

def Flags.add (f : Flags) (fs : List FlagChar) : Flags where
  minus := f.minus || fs.contains .minus
  plus := f.plus || fs.contains .plus
  space := f.space || fs.contains .space
  zero := f.zero || fs.contains .zero
  alt := f.alt || fs.contains .alt

theorem takeFlags_map (fs : List FlagChar) (fmt : List UInt8) : ∀ f : Flags,
    takeFlags f (fs.map FlagChar.char ++ fmt) = takeFlags (f.add fs) fmt := by
  induction fs with
  | nil =>
    intro f
    simp [Flags.add]
  | cons c fs ih =>
    intro f
    have hadd : ∀ g : Flags, takeFlags f (c.char :: (fs.map FlagChar.char ++ fmt)) =
        takeFlags g (fs.map FlagChar.char ++ fmt) → g.add fs = f.add (c :: fs) →
        takeFlags f (c.char :: (fs.map FlagChar.char ++ fmt)) = takeFlags (f.add (c :: fs)) fmt := by
      intro g h1 h2
      rw [h1, ih, h2]
    obtain ⟨m, p, s, z, a⟩ := f
    cases c
    · exact hadd ⟨true, p, s, z, a⟩ rfl (by simp [Flags.add])
    · exact hadd ⟨m, true, s, z, a⟩ rfl (by simp [Flags.add])
    · exact hadd ⟨m, p, true, z, a⟩ rfl (by simp [Flags.add])
    · exact hadd ⟨m, p, s, true, a⟩ rfl (by simp [Flags.add])
    · exact hadd ⟨m, p, s, z, true⟩ rfl (by simp [Flags.add])

theorem readOn_mod (b m : Nat) (ds : List Nat) (v : Nat) :
    readOn b (v % m) ds % m = readOn b v ds % m := by
  rw [readOn_eq, readOn_eq, Nat.add_mod, Nat.mul_mod, Nat.mod_mod, ← Nat.mul_mod, ← Nat.add_mod]

theorem isDigit_digit (d : Fin 10) : isDigit (UInt8.ofNat (48 + d.val)) = true ∧
    UInt8.ofNat (48 + d.val) ≠ 0 ∧ (UInt8.ofNat (48 + d.val)).toNat - 48 = d.val ∧
    UInt8.ofNat (48 + d.val) ≠ ch '*' := by
  revert d
  decide

theorem takeNumber_map {c : UInt8} (h0 : c ≠ 0) (hc : isDigit c = false) (fmt : List UInt8)
    (ds : List (Fin 10)) : ∀ v : Nat, v < 2 ^ 32 →
    takeNumber v (ds.map (fun d : Fin 10 => UInt8.ofNat (48 + d.val)) ++ c :: fmt) =
      some (readOn 10 v (ds.map Fin.val) % 2 ^ 32, c, fmt) := by
  induction ds with
  | nil =>
    intro v hv
    rw [map_nil, nil_append, takeNumber, if_neg h0, hc, if_neg (by decide),
      map_nil, readOn_nil, Nat.mod_eq_of_lt hv]
  | cons d ds ih =>
    intro v hv
    obtain ⟨h1, h2, h3, -⟩ := isDigit_digit d
    rw [map_cons, cons_append, takeNumber, if_neg h2, if_pos h1, h3,
      ih _ (Nat.mod_lt _ (by decide)), readOn_mod, map_cons, readOn_cons]

def Directive.tail (d : Directive) (rest : List UInt8) : List UInt8 :=
  d.length.chars ++ d.conv.char :: rest

theorem parseLength_chars (length : LengthModifier) (conv : Conversion) (rest : List UInt8) :
    ∃ c fmt, length.chars ++ conv.char :: rest = c :: fmt ∧
      parseLength c fmt = (length, conv.char, rest) ∧
      c ≠ 0 ∧ isDigit c = false ∧ c ≠ ch '.' ∧ c ≠ ch '*' ∧ endsFlags c = true := by
  cases length <;> cases conv <;>
    exact ⟨_, _, rfl, rfl, by decide, by decide, by decide, by decide, by decide⟩

/-- The precision, the length modifier and the conversion. -/
def Directive.precisionTail (d : Directive) (rest : List UInt8) : List UInt8 :=
  precisionChars d.precision ++ d.tail rest

def Directive.fieldOf (d : Directive) (f : Flags) (w : Nat) (args : List Arg) :
    Option (Field × List Arg) :=
  match d.precision with
  | none => some (⟨f, w, none⟩, args)
  | some a =>
    match a.read args with
    | none => none
    | some (p, args) => some (⟨f, w, if p < 0 then none else some p.toNat⟩, args)

variable {args rest : List Arg} (d : Directive)

theorem Directive.field_eq (args : List Arg) :
    d.field args = match d.width.read args with
      | none => none
      | some (w, args) => d.fieldOf
          (if w < 0 then { Flags.of d.flags with minus := true } else Flags.of d.flags)
          w.natAbs args := rfl

theorem Directive.fieldOf_some {d : Directive} {f : Flags} {w : Nat} {g : Field}
    (h : d.fieldOf f w args = some (g, rest)) : g.flags = f ∧ g.width = w := by
  unfold Directive.fieldOf at h
  split at h
  · cases h
    simp
  · split at h
    · cases h
    · cases h
      exact ⟨rfl, rfl⟩

theorem parsePrecision_tail (rest : List UInt8) (args : List Arg) :
    ∃ c fmt, d.precisionTail rest = c :: fmt ∧
      c ≠ 0 ∧ isDigit c = false ∧ c ≠ ch '*' ∧ endsFlags c = true ∧
      ∀ f : Flags, ∀ w : Nat,
      match d.fieldOf f w args with
      | none => parsePrecision c fmt args = .error .missing
      | some (g, args') => ∃ c' fmt', d.tail rest = c' :: fmt' ∧ parsePrecision c fmt args =
            .ok ⟨(d.spec g).precision, (d.spec g).precisionSet, c', fmt', args'⟩ := by
  obtain ⟨c0, fmt0, htail, -, h0, hdig, hdot, hstar, hflags⟩ :=
    parseLength_chars d.length d.conv rest
  change d.tail rest = _ at htail
  unfold Directive.precisionTail Directive.fieldOf precisionChars
  rcases hp : d.precision with _ | a
  · refine ⟨c0, fmt0, htail, h0, hdig, hstar, hflags, fun f w => ?_⟩
    refine ⟨c0, fmt0, htail, ?_⟩
    rw [parsePrecision, if_neg hdot]
    simp [Directive.spec]
  refine ⟨ch '.', a.chars ++ d.tail rest, rfl, by decide, by decide, by decide, by decide,
    fun f w => ?_⟩
  simp only
  cases a with
  | star =>
    have hnext : nextChar (Amount.star.chars ++ d.tail rest) = some (ch '*', d.tail rest) := rfl
    have hnext' : nextChar (d.tail rest) = some (c0, fmt0) := by
      rw [htail, nextChar, if_neg h0]
    rw [Amount.read]
    rcases hv : vaSigned 32 args with _ | ⟨p, args'⟩
    · simp only [parsePrecision, if_true, hnext, hv]
    simp only [parsePrecision, hnext, hv, hnext']
    refine ⟨c0, fmt0, htail, ?_⟩
    by_cases hneg : p < 0
    · simp [Directive.spec, hneg, Int.toNat_of_nonpos (Int.le_of_lt hneg)]
    · simp [Directive.spec, hp, hneg, Int.not_lt.mp hneg]
  | digits ds =>
    have hnum : takeNumber 0 (ds.map (fun d : Fin 10 => UInt8.ofNat (48 + d.val)) ++ c0 :: fmt0) =
        some (readOn 10 0 (ds.map Fin.val) % 2 ^ 32, c0, fmt0) :=
      takeNumber_map h0 hdig fmt0 ds 0 (by decide)
    obtain ⟨c1, fmt1, hlist, hne, hnestar⟩ : ∃ c1 fmt1,
        ds.map (fun d : Fin 10 => UInt8.ofNat (48 + d.val)) ++ c0 :: fmt0 = c1 :: fmt1 ∧
        c1 ≠ 0 ∧ c1 ≠ ch '*' := by
      cases ds with
      | nil => exact ⟨c0, fmt0, rfl, h0, hstar⟩
      | cons d ds => exact ⟨_, _, rfl, (isDigit_digit d).2.1, (isDigit_digit d).2.2.2⟩
    have hnext : nextChar ((Amount.digits ds).chars ++ d.tail rest) = some (c1, fmt1) := by
      rw [Amount.chars, htail, hlist, nextChar, if_neg hne]
    refine ⟨c0, fmt0, htail, ?_⟩
    rw [hlist] at hnum
    simp only [parsePrecision, hnext, if_neg hnestar, hnum]
    have hnn : ¬((readOn 10 0 (ds.map Fin.val) : Nat) : Int) < 0 := by omega
    simp [Directive.spec, hp, hnn]

theorem endsFlags_digit {d : Fin 10} (h : d ≠ 0) :
    endsFlags (UInt8.ofNat (48 + d.val)) = true := by
  revert d
  decide

/-- An `int` is at most `2 ^ 31` away from zero, and there only when negative. -/
theorem vaSigned_bounds {bits : Nat} (hb : 0 < bits) {v : Int}
    (h : vaSigned bits args = some (v, rest)) : -2 ^ (bits - 1) ≤ v ∧ v < 2 ^ (bits - 1) := by
  cases args with
  | nil => cases h
  | cons arg args =>
    cases arg with
    | word w =>
      cases h
      obtain ⟨b, rfl⟩ : ∃ b, bits = b + 1 := ⟨bits - 1, by omega⟩
      have h1 := Int.le_bmod (x := (w : Int)) (m := 2 ^ (b + 1)) (Nat.two_pow_pos _)
      have h2 := Int.bmod_lt (x := (w : Int)) (m := 2 ^ (b + 1)) (Nat.two_pow_pos _)
      rw [Nat.add_sub_cancel]
      have hpow : ((2 ^ (b + 1) : Nat) : Int) = 2 * 2 ^ b := by
        push_cast
        omega
      omega
    | str bytes | wide chars => cases h

/-- What follows the width is read, whatever the flags and the width are. -/
theorem parseRest (rest : List UInt8) (g : Flags) (w : Nat) (fieldWidth : Nat) (args : List Arg)
    (c : UInt8) (fmt : List UInt8) (hlist : d.precisionTail rest = c :: fmt)
    (hwidth : ∀ f args', d.fieldOf g w args = some (f, args') → (d.spec f).fieldWidth = fieldWidth) :
    (match parsePrecision c fmt args with
      | .error e => Except.error e
      | .ok p =>
        let r := parseLength p.c p.fmt
        .ok (.spec ⟨g, fieldWidth, p.precision, p.precisionSet, r.1, r.2.1⟩ r.2.2 p.args) :
        Except Halt Parsed) =
      match d.fieldOf g w args with
      | none => .error .missing
      | some (f, args) => .ok (.spec (d.spec f) rest args) := by
  obtain ⟨c1, fmt1, hlist1, -, -, -, -, hread⟩ := parsePrecision_tail d rest args
  rw [hlist, cons.injEq] at hlist1
  obtain ⟨rfl, rfl⟩ := hlist1
  have hread := hread g w
  rcases hf : d.fieldOf g w args with _ | ⟨f, args'⟩
  · rw [hf] at hread
    simp only [hread]
  rw [hf] at hread
  obtain ⟨c', fmt', htail, hok⟩ := hread
  obtain ⟨c2, fmt2, htail2, hlen, -⟩ := parseLength_chars d.length d.conv rest
  have heq : c' :: fmt' = c2 :: fmt2 := htail.symm.trans htail2
  obtain ⟨rfl, rfl⟩ := heq
  obtain ⟨hg, -⟩ := Directive.fieldOf_some hf
  simp only [hok, hlen, ← hwidth f args' hf, ← hg]
  rfl

/-- **Reading a directive.** The code finds the end of it, and takes the
arguments of its asterisks. -/
theorem parseSpec_directive {d : Directive} (hd : d.Valid) (rest : List UInt8) (args : List Arg) :
    parseSpec (d.chars ++ rest) args = match d.field args with
      | none => .error .missing
      | some (f, args) => .ok (.spec (d.spec f) rest args) := by
  have hchars : d.chars ++ rest =
      d.flags.map FlagChar.char ++ (d.width.chars ++ d.precisionTail rest) := by
    simp only [Directive.chars, Directive.precisionTail, Directive.tail, append_assoc,
      cons_append, nil_append]
  have hflags : Flags.none.add d.flags = Flags.of d.flags := by
    rfl
  obtain ⟨c1, fmt1, hlist1, h0, hdig, hstar, hend, -⟩ := parsePrecision_tail d rest args
  have hfield := d.field_eq args
  rw [parseSpec, hchars, takeFlags_map, hflags, hfield]
  rcases hw : d.width with ds | _
  · -- a width of digits, or none
    obtain ⟨c, fmt, hlist, hcend, hcstar⟩ : ∃ c fmt,
        ds.map (fun d : Fin 10 => UInt8.ofNat (48 + d.val)) ++ c1 :: fmt1 = c :: fmt ∧
        endsFlags c = true ∧ c ≠ ch '*' := by
      cases ds with
      | nil => exact ⟨c1, fmt1, rfl, hend, hstar⟩
      | cons e ds =>
        have hne : e ≠ 0 := by
          have := hd.1
          rw [hw] at this
          simpa using this
        exact ⟨_, _, rfl, endsFlags_digit hne, (isDigit_digit e).2.2.2⟩
    have hnum := takeNumber_map h0 hdig fmt1 ds 0 (by decide)
    have hpercent : c ≠ ch '%' := by
      rintro rfl
      cases hcend
    rw [Amount.chars, hlist1, hlist, takeFlags_end hcend]
    rw [hlist] at hnum
    simp only [if_neg hpercent, parseWidth, if_neg hcstar, hnum, Amount.read]
    have hnn : ¬((readOn 10 0 (ds.map Fin.val) : Nat) : Int) < 0 := by omega
    rw [if_neg hnn, Int.natAbs_natCast]
    refine parseRest d rest _ _ _ _ _ _ hlist1 fun f args' hf => ?_
    simp only [Directive.spec, hw, (Directive.fieldOf_some hf).2]
  · -- an asterisk
    rw [show Amount.star.chars ++ d.precisionTail rest = ch '*' :: d.precisionTail rest from rfl,
      takeFlags_end (by decide)]
    have hnext : nextChar (d.precisionTail rest) = some (c1, fmt1) := by
      rw [hlist1, nextChar, if_neg h0]
    simp only [parseWidth, Amount.read]
    rcases hv : vaSigned 32 args with _ | ⟨w, args'⟩
    · rfl
    simp only [hnext]
    have hbounds := vaSigned_bounds (by decide) hv
    refine parseRest d rest _ _ _ _ _ _ hlist1 fun f args'' hf => ?_
    simp only [Directive.spec, hw, (Directive.fieldOf_some hf).2]
    split
    · split <;> omega
    · omega

/-! ## A whole format -/

/-- The text that the code makes of a directive, and the arguments left. -/
def Directive.text (abi : Abi) (d : Directive) (args : List Arg) :
    Option (List UInt8 × List Arg) :=
  match d.field args with
  | none => none
  | some (f, args) => (specText abi (d.spec f) args).toOption

/-- The text that the code makes of a format when there is room for it. -/
def codeText (abi : Abi) : List Piece → List Arg → Option (List UInt8 × List Arg)
  | [], args => some ([], args)
  | .char c :: pieces, args => (codeText abi pieces args).map fun r => (c :: r.1, r.2)
  | .percent :: pieces, args => (codeText abi pieces args).map fun r => (ch '%' :: r.1, r.2)
  | .directive d :: pieces, args =>
    match d.text abi args with
    | none => none
    | some (text, args) => (codeText abi pieces args).map fun r => (text ++ r.1, r.2)

/-- The arguments left when there is room for so many characters: the
directives after the last one are not reached. -/
def argsLeft (abi : Abi) : (room : Nat) → List Piece → List Arg → List Arg
  | 0, _, args => args
  | _ + 1, [], args => args
  | room + 1, .char _ :: pieces, args => argsLeft abi room pieces args
  | room + 1, .percent :: pieces, args => argsLeft abi room pieces args
  | room + 1, .directive d :: pieces, args =>
    match d.text abi args with
    | none => args
    | some (text, args) => argsLeft abi (room + 1 - text.length) pieces args

section loop

variable {abi : Abi} {n fuel : Nat} {o : Output}

theorem formatLoop_full (h : ¬o.s.length < n) (fmt : List UInt8) :
    formatLoop abi n (fuel + 1) fmt o = finish n o := by
  exact if_neg h

theorem formatLoop_char (h : o.s.length < n) {c : UInt8} (h0 : c ≠ 0) (hc : c ≠ ch '%')
    (fmt : List UInt8) :
    formatLoop abi n (fuel + 1) (c :: fmt) o =
      formatLoop abi n fuel fmt { o with s := o.s ++ [c] } := by
  rw [formatLoop.eq_def]
  dsimp only
  rw [if_pos h, if_neg h0, if_pos hc]

theorem formatLoop_percent (h : o.s.length < n) (fmt : List UInt8) :
    formatLoop abi n (fuel + 1) (ch '%' :: ch '%' :: fmt) o =
      formatLoop abi n fuel fmt { o with s := o.s ++ [ch '%'] } := by
  have hspec : parseSpec (ch '%' :: fmt) o.args = .ok (.percent fmt) := rfl
  rw [formatLoop.eq_def]
  dsimp only
  rw [if_pos h, if_neg (by decide), if_neg (by decide), hspec]

theorem formatLoop_directive (fuel : Nat) (h : o.s.length < n) {d : Directive} (hd : d.Valid)
    {text : List UInt8} {args : List Arg} (ht : d.text abi o.args = some (text, args))
    (fmt : List UInt8) :
    ∃ counts, formatLoop abi n (fuel + 1) (ch '%' :: (d.chars ++ fmt)) o =
      formatLoop abi n fuel fmt ⟨(o.s ++ text).take n, args, counts⟩ := by
  have hparse := parseSpec_directive hd fmt o.args
  rw [Directive.text] at ht
  rcases hf : d.field o.args with _ | ⟨f, args0⟩
  · rw [hf] at ht
    cases ht
  rw [hf] at ht hparse
  dsimp only at ht hparse
  have hconv := convert_eq abi (d.spec f) (o := { o with args := args0 })
    (le_of_lt h)
  rcases hst : specText abi (d.spec f) args0 with e | r
  · rw [hst] at ht
    cases ht
  rw [hst] at ht
  cases ht
  simp only [hst] at hconv
  obtain ⟨counts, hconv⟩ := hconv
  refine ⟨counts, ?_⟩
  rw [formatLoop.eq_def]
  dsimp only
  rw [if_pos h, if_neg (by decide), if_neg (by decide), hparse]
  dsimp only
  rw [hconv]

end loop

/-- **The loop.** What is stored is the text of the format, cut at `n`. -/
theorem formatLoop_pieces (abi : Abi) {n : Nat} (pieces : List Piece) :
    ∀ (fuel : Nat) (o : Output), (∀ p ∈ pieces, p.Valid) → pieces.length < fuel →
      o.s.length ≤ n → ∀ text rest, codeText abi pieces o.args = some (text, rest) →
      ∃ counts, formatLoop abi n fuel (formatOf pieces) o =
        finish n ⟨(o.s ++ text).take n, argsLeft abi (n - o.s.length) pieces o.args, counts⟩ := by
  induction pieces with
  | nil =>
    intro fuel o _ hfuel hs text rest htext
    cases htext
    obtain ⟨fuel, rfl⟩ : ∃ k, fuel = k + 1 := ⟨fuel - 1, by omega⟩
    refine ⟨o.counts, ?_⟩
    rw [append_nil, take_of_length_le hs,
      show argsLeft abi (n - o.s.length) [] o.args = o.args by cases n - o.s.length <;> rfl]
    rw [formatLoop.eq_def]
    simp [formatOf]
  | cons p pieces ih =>
    intro fuel o hvalid hfuel hs text rest htext
    obtain ⟨fuel, rfl⟩ : ∃ k, fuel = k + 1 := ⟨fuel - 1, by omega⟩
    have hvalid' : ∀ q ∈ pieces, q.Valid := fun q hq => hvalid q (.tail _ hq)
    have hp := hvalid p (mem_cons_self ..)
    rw [length_cons] at hfuel
    rcases lt_or_ge o.s.length n with hlt | hge
    · obtain ⟨room, hroom⟩ : ∃ k, n - o.s.length = k + 1 := ⟨n - o.s.length - 1, by omega⟩
      have hone : ∀ c : UInt8, (o.s ++ [c]).length ≤ n ∧ n - (o.s ++ [c]).length = room :=
        fun c => by
          rw [length_append, length_singleton]
          omega
      rw [hroom]
      cases p with
      | char c =>
        rw [codeText] at htext
        rcases ht : codeText abi pieces o.args with _ | ⟨text', rest'⟩
        · rw [ht] at htext
          cases htext
        rw [ht] at htext
        cases htext
        obtain ⟨counts, hloop⟩ := ih fuel { o with s := o.s ++ [c] } hvalid' (by omega)
          (hone c).1 text' rest' ht
        refine ⟨counts, ?_⟩
        change formatLoop abi n (fuel + 1) (c :: formatOf pieces) o = _
        rw [formatLoop_char hlt hp.1 hp.2, hloop, (hone c).2, append_assoc]
        rfl
      | percent =>
        rw [codeText] at htext
        rcases ht : codeText abi pieces o.args with _ | ⟨text', rest'⟩
        · rw [ht] at htext
          cases htext
        rw [ht] at htext
        cases htext
        obtain ⟨counts, hloop⟩ := ih fuel { o with s := o.s ++ [ch '%'] } hvalid' (by omega)
          (hone _).1 text' rest' ht
        refine ⟨counts, ?_⟩
        change formatLoop abi n (fuel + 1) (ch '%' :: ch '%' :: formatOf pieces) o = _
        rw [formatLoop_percent hlt, hloop, (hone _).2, append_assoc]
        rfl
      | directive d =>
        rw [codeText] at htext
        rcases hd : d.text abi o.args with _ | ⟨dtext, args1⟩
        · rw [hd] at htext
          cases htext
        rw [hd] at htext
        dsimp only at htext
        rcases ht : codeText abi pieces args1 with _ | ⟨text', rest'⟩
        · rw [ht] at htext
          cases htext
        rw [ht] at htext
        cases htext
        obtain ⟨counts1, hstep⟩ :=
          formatLoop_directive fuel hlt (hp) hd (formatOf pieces)
        obtain ⟨counts, hloop⟩ := ih fuel
          ⟨(o.s ++ dtext).take n, args1, counts1⟩ hvalid' (by omega)
          (by rw [length_take]; omega) text' rest' ht
        have hcut : n - ((o.s ++ dtext).take n).length = room + 1 - dtext.length := by
          rw [length_take, length_append]
          omega
        refine ⟨counts, ?_⟩
        change formatLoop abi n (fuel + 1) (ch '%' :: d.chars ++ formatOf pieces) o = _
        rw [cons_append, hstep, hloop, hcut, take_append_take, append_assoc, argsLeft, hd]
    · -- nothing is read any more
      have hn : o.s.length = n := by omega
      refine ⟨o.counts, ?_⟩
      rw [formatLoop_full (by omega), show n - o.s.length = 0 by omega, argsLeft, ← hn, take_left]

theorem length_le_formatOf (pieces : List Piece) : pieces.length ≤ (formatOf pieces).length := by
  induction pieces with
  | nil => rfl
  | cons p pieces ih =>
    have hp : 1 ≤ p.chars.length := by
      cases p <;> simp [Piece.chars]
    rw [formatOf, flatMap_cons, length_append, length_cons]
    change _ ≤ _ + (formatOf pieces).length
    omega

/-- **A call.** The text of the format is stored as far as there is room, and
its length is returned if it is less than the room. -/
theorem myVsnprintf_eq (abi : Abi) {pieces : List Piece} (hvalid : ∀ p ∈ pieces, p.Valid)
    {text : List UInt8} (htext : codeText abi pieces args = some (text, rest)) (n : Nat) :
    ∃ counts, myVsnprintf abi (n + 1) (formatOf pieces) args =
      .returned (if text.length ≥ n then -1 else (min text.length intMax : Nat))
        ⟨text.take n ++ [0], argsLeft abi n pieces args, counts⟩ := by
  obtain ⟨counts, hloop⟩ := formatLoop_pieces abi pieces ((formatOf pieces).length + 1)
    ⟨[], args, []⟩ hvalid (Nat.lt_succ_of_le (length_le_formatOf pieces)) (Nat.zero_le n)
    text rest htext
  refine ⟨counts, ?_⟩
  rw [myVsnprintf, if_neg (by omega), Nat.add_sub_cancel, hloop, finish]
  simp only [nil_append, length_nil, Nat.sub_zero, length_take]
  rcases lt_or_ge text.length n with hlt | hge
  · simp [min_eq_right (le_of_lt hlt)]
  · rw [if_pos (by omega), if_pos hge]

end Dancy.Libc.Format
