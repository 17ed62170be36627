import Dancy.Libc.FormatNumbers

/-!
# Where the output is the standard's

A directive agrees with the standard when the value has the range that its
length modifier names, the width and the precision fit into an `unsigned`, and
a prefix is not in the way of a precision or of zeros. A format agrees, with
all its beginnings, just when every directive does.
-/

namespace Dancy.Libc.Format

open Dancy.Lib List Option

section spec

variable {d : Directive} {f : Field} {args rest : List Arg}

theorem spec_bounds (h : d.field args = some (f, rest)) :
    (d.spec f).fieldWidth < 2 ^ 32 ∧ (d.spec f).fieldWidth ≤ f.width ∧
      (d.spec f).precision < 2 ^ 32 ∧ (d.spec f).precision ≤ f.precision.getD 0 ∧
      ((d.spec f).precision ≠ f.precision.getD 0 → 2 ^ 32 ≤ f.precision.getD 0) := by
  have hwidth : (d.spec f).fieldWidth < 2 ^ 32 ∧ (d.spec f).fieldWidth ≤ f.width := by
    unfold Directive.spec
    cases d.width with
    | digits ds => exact ⟨Nat.mod_lt _ (by decide), Nat.mod_le _ _⟩
    | star => simp only; omega
  refine ⟨hwidth.1, hwidth.2, ?_⟩
  unfold Directive.field at h
  rcases hr : d.width.read args with _ | ⟨w, args1⟩
  · rw [hr] at h
    cases h
  rw [hr] at h
  unfold Directive.spec
  rcases hp : d.precision with _ | a
  · rw [hp] at h
    cases h
    simp
  rw [hp] at h
  dsimp only at h
  rcases ha : a.read args1 with _ | ⟨p, args2⟩
  · rw [ha] at h
    cases h
  rw [ha] at h
  cases h
  by_cases hneg : p < 0
  · simp [hneg]
  cases a with
  | digits ds =>
    simp only [hneg, if_false, getD_some]
    omega
  | star =>
    have hb := (vaSigned_bounds (by decide) ha).2
    simp only [hneg, if_false]
    exact ⟨by omega, le_rfl, fun hne => absurd rfl hne⟩

theorem spec_precisionSet : (d.spec f).precisionSet = false → (d.spec f).precision = 0 := by
  unfold Directive.spec
  cases f.precision with
  | none | some => simp

theorem spec_fill : (d.spec f).fill = f.fill := by
  unfold Spec.fill Field.fill Directive.spec
  cases f.precision <;> rfl

theorem spec_sign (v : Int) : (d.spec f).sign v = f.sign v := rfl

theorem spec_digits (h : (d.spec f).precision = f.precision.getD 0) (b : Nat) (upcase : Bool)
    (v : Nat) : (d.spec f).digits b upcase v = f.digits b upcase v := by
  unfold Spec.digits Field.digits
  rw [h]
  have hset : (d.spec f).precisionSet = f.precision.isSome := rfl
  rw [hset]
  cases f.precision <;> rfl

end spec

/-- The width that is read makes the same field around `len` characters. From
`2 ^ 32` characters on the width is filled up on the right once more. -/
def Field.Fits (f : Field) (fieldWidth len : Nat) : Prop :=
  if len < 2 ^ 32 then fieldWidth = f.width ∨ f.width ≤ len
  else fieldWidth = f.width - 2 ^ 32 ∧ (f.width ≤ 2 ^ 32 ∨ f.flags.minus = true)

/-- The conversions `d` and `i`. -/
def Directive.SignedAgrees (abi : Abi) (d : Directive) (f : Field) (v : Int) : Prop :=
  v = v.bmod (2 ^ d.length.valueBits abi) ∧
  (d.spec f).precision = f.precision.getD 0 ∧
  f.Fits (d.spec f).fieldWidth ((f.sign v).length + (f.digits 10 false v.natAbs).length)

/-- The conversion `u`. -/
def Directive.UnsignedAgrees (abi : Abi) (d : Directive) (f : Field) (v : Nat) : Prop :=
  v = v % 2 ^ d.length.valueBits abi ∧
  (d.spec f).precision = f.precision.getD 0 ∧
  f.Fits (d.spec f).fieldWidth (f.digits 10 false v).length

/-- The conversion `o`: a zero with the precision zero loses its digit. -/
def Directive.OctalAgrees (abi : Abi) (d : Directive) (f : Field) (v : Nat) : Prop :=
  v = v % 2 ^ d.length.valueBits abi ∧
  (d.spec f).precision = f.precision.getD 0 ∧
  ¬(f.flags.alt = true ∧ v = 0 ∧ f.precision = some 0) ∧
  f.Fits (d.spec f).fieldWidth (f.octalDigits v).length

/-- The conversions `x` and `X`: the prefix counts as digits, and zero has
it, too. -/
def Directive.HexAgrees (abi : Abi) (d : Directive) (f : Field) (upcase : Bool) (v : Nat) : Prop :=
  v = v % 2 ^ d.length.valueBits abi ∧
  (d.spec f).precision = f.precision.getD 0 ∧
  (f.flags.alt = true → if v = 0 then f.precision = some 0
    else f.precision.getD 0 ≤ (numeral 16 upcase v).length ∧
      (f.fill = .inside → f.width ≤ (numeral 16 upcase v).length + 2)) ∧
  f.Fits (d.spec f).fieldWidth ((f.hexPrefix upcase v).length + (f.digits 16 upcase v).length)

/-! ## Signed numbers -/

section numbers

variable {abi : Abi} {d : Directive} {f : Field} {args rest : List Arg}

variable {b v v' : Nat} {upcase : Bool}

theorem lt_pow_of_bits (hb : 1 < b) (hv : v < 2 ^ 64) : v < b ^ 64 :=
  lt_of_lt_of_le hv (Nat.pow_le_pow_left hb 64)

variable (sp : Spec)

theorem digits_length (b : Nat) (upcase : Bool) (v : Nat) :
    (sp.digits b upcase v).length =
      max (if sp.precisionSet then sp.precision else 1) (numeral b upcase v).length := by
  rw [Spec.digits, atLeast_length]

theorem field_digits_length (f : Field) (b : Nat) (upcase : Bool) (v : Nat) :
    (f.digits b upcase v).length = max (f.precision.getD 1) (numeral b upcase v).length := by
  rw [Field.digits, atLeast_length]

/-- The text of `d` as a field; a text of `2 ^ 32` characters is filled up on
the right as if it had none. -/
theorem signedText_layout (hf : d.field args = some (f, rest)) {v : Int}
    (hv : v.natAbs < 2 ^ 64) :
    ∃ fill w, signedText (d.spec f) v =
        layout (ch ' ') (ch '0') fill w (f.sign v) ((d.spec f).digits 10 false v.natAbs) ∧
      ((f.sign v).length + ((d.spec f).digits 10 false v.natAbs).length < 2 ^ 32 →
        fill = f.fill ∧ w = (d.spec f).fieldWidth) ∧
      (¬(f.sign v).length + ((d.spec f).digits 10 false v.natAbs).length < 2 ^ 32 →
        (f.sign v).length + ((d.spec f).digits 10 false v.natAbs).length = 2 ^ 32 ∧
        fill = .right ∧ w = (d.spec f).fieldWidth + 2 ^ 32) := by
  obtain ⟨hfw, -, hprec, -, -⟩ := spec_bounds hf
  have hlt := lt_pow_of_bits (b := 10) (by decide) hv
  have hrev := unsignedDigits_reverse false 64 (by decide)
    (by decide) hlt
  rw [← signedDigits_eq] at hrev
  have hlen : (signedDigits 64 v).length =
      (if v.natAbs = 0 then [ch '0'] else numeral 10 false v.natAbs).length := by
    rw [← hrev, length_reverse]
  have hnum := numeral_length_le false (b := 10) (by decide) hlt
  have hpos : 0 < (signedDigits 64 v).length ∧ (signedDigits 64 v).length < 2 ^ 32 := by
    rw [hlen]
    split
    · simp
    · next h0 =>
        have := numeral_length_pos false (b := 10) (by decide) h0
        omega
  have hmain := main_eq (by decide) (spec_precisionSet (d := d) (f := f)) hrev
  have hzero : (v.natAbs = 0) = (v = 0) := propext Int.natAbs_eq_zero
  simp only [hzero] at hmain
  have htext := signedText_eq hfw hprec hpos.1 hpos.2
    (fun h0 => by rw [hlen, if_pos (by rw [h0]; rfl)]; rfl) (spec_sign v) hmain
  have hdigits : ((d.spec f).digits 10 false v.natAbs).length < 2 ^ 32 := by
    rw [digits_length]
    split <;> omega
  have hsign := (d.spec f).sign_length_le v
  rw [spec_sign] at hsign
  rw [htext]
  split
  · next hshort =>
      refine ⟨f.fill, (d.spec f).fieldWidth, ?_, fun _ => ⟨rfl, rfl⟩, fun hn => absurd hshort hn⟩
      rw [Spec.layout, spec_fill]
  next hfull =>
    refine ⟨.right, (d.spec f).fieldWidth + 2 ^ 32, ?_, fun hs => absurd hs hfull,
      fun _ => ⟨by omega, rfl, rfl⟩⟩
    rw [layout, show (d.spec f).fieldWidth + 2 ^ 32 -
      ((f.sign v).length + ((d.spec f).digits 10 false v.natAbs).length) =
        (d.spec f).fieldWidth by omega]

theorem sign_filter (f : Field) (v : Int) :
    (f.sign v).filter isHex = replicate 0 (ch '0') ∧
      (f.sign v).filter (· = ch '-') = if v < 0 then [ch '-'] else [] := by
  unfold Field.sign
  split
  · exact ⟨by decide, by decide⟩
  split
  · exact ⟨by decide, by decide⟩
  · split
    · exact ⟨by decide, by decide⟩
    · simp

theorem digits_filter_minus (hb : 1 < b) (hb16 : b ≤ 16) (p : Nat) (upcase : Bool) (v : Nat) :
    (atLeast (ch '0') p (numeral b upcase v)).filter (· = ch '-') = [] := by
  refine filter_eq_nil_iff.mpr fun c hc => ?_
  have hhex := atLeast_hex hb hb16 p c hc
  simp only [decide_eq_true_eq]
  rintro rfl
  cases hhex

/-- A precision that is not read as it stands is above `2 ^ 32`, and would show
in the number of digits. -/
theorem precision_eq (hf : d.field args = some (f, rest))
    (h : ∀ p, f.precision = some p → (d.spec f).precisionSet = true → f.fill ≠ .inside →
      p ≤ max (d.spec f).precision 100) :
    (d.spec f).precision = f.precision.getD 0 := by
  obtain ⟨-, -, hlt, -, hlarge⟩ := spec_bounds hf
  by_contra hne
  have hlarge := hlarge hne
  have hset : (d.spec f).precisionSet = f.precision.isSome := rfl
  rcases hp : f.precision with _ | p
  · rw [hp] at hlarge
    cases hlarge
  rw [hp, getD_some] at hlarge
  have hfill : f.fill ≠ .inside := by
    rw [Field.fill, hp]
    split
    · decide
    · simp
  have := h p hp (by rw [hset, hp]; rfl) hfill
  omega

theorem signedText_iff (hf : d.field args = some (f, rest)) {v : Int} (hv : v.natAbs < 2 ^ 64) :
    signedText (d.spec f) v = f.signed (v.bmod (2 ^ d.length.valueBits abi)) ↔
      d.SignedAgrees abi f v := by
  obtain ⟨v', hv'⟩ : ∃ u, u = v.bmod (2 ^ d.length.valueBits abi) := ⟨_, rfl⟩
  obtain ⟨fill, w, htext, hshort, hfull⟩ := signedText_layout hf hv
  obtain ⟨-, hle, -, -, -⟩ := spec_bounds hf
  have hnum := numeral_length_le false (by decide)
    (lt_pow_of_bits (b := 10) (by decide) hv)
  unfold Directive.SignedAgrees
  rw [htext, ← hv', Field.signed, Field.layout]
  constructor
  · intro heq
    obtain ⟨habs, hcount⟩ := layout_value (by decide) (by decide) (sign_filter f v).1
      (filter_isHex_atLeast (by decide) (by decide) _) (sign_filter f v').1
      (filter_isHex_atLeast (by decide) (by decide) _) heq
    have hminus := congrArg (filter (· = ch '-')) heq
    rw [filter_layout (by decide) (by decide), filter_layout (by decide) (by decide),
      (sign_filter f v).2, (sign_filter f v').2, Spec.digits, Field.digits,
      digits_filter_minus (by decide) (by decide), digits_filter_minus (by decide) (by decide),
      append_nil, append_nil] at hminus
    have hvv : v = v' := by
      split at hminus <;> split at hminus
      · omega
      · cases hminus
      · cases hminus
      · omega
    rw [← hvv] at heq ⊢
    have hprec : (d.spec f).precision = f.precision.getD 0 := by
      refine precision_eq hf fun p hp hset hfill => ?_
      have hfill' : fill ≠ .inside := by
        by_cases hs : (f.sign v).length + ((d.spec f).digits 10 false v.natAbs).length < 2 ^ 32
        · rwa [(hshort hs).1]
        · rw [(hfull hs).2.1]
          decide
      have := hcount hfill' hfill
      rw [hset, hp, habs.symm, if_pos rfl, getD_some] at this
      omega
    refine ⟨rfl, hprec, ?_⟩
    rw [spec_digits hprec] at heq hshort hfull
    unfold Field.Fits
    split
    · next hs =>
        obtain ⟨hfill, hw⟩ := hshort hs
        rw [hfill, hw, layout_width_iff hle] at heq
        exact heq
    next hs =>
      obtain ⟨hlen, hfill, hw⟩ := hfull hs
      have hl := congrArg length heq
      rw [layout_length, layout_length, hlen, hw] at hl
      have hroom : ∀ m : Nat, max ((d.spec f).fieldWidth + m) m = max f.width m →
          (d.spec f).fieldWidth = f.width - m := by omega
      refine ⟨hroom _ hl, ?_⟩
      by_contra hnot
      simp only [not_or, not_le, Bool.not_eq_true] at hnot
      -- one field ends with a space, the other with a digit
      have hright : f.fill ≠ .right := by
        rw [Field.fill, hnot.2]
        cases f.flags.zero && f.precision.isNone <;> decide
      have hmain : f.digits 10 false v.natAbs ≠ [] := by
        intro hnil
        rw [hnil, length_nil] at hlen
        have := (d.spec f).sign_length_le v
        rw [spec_sign] at this
        omega
      have hroom' : ∀ m : Nat, m < f.width → (d.spec f).fieldWidth = f.width - m →
          m < (d.spec f).fieldWidth + m := by omega
      have hlast := congrArg getLast? heq
      rw [hfill, hw, layout_last hright hmain,
        layout_right_last (by rw [hlen]; exact hroom' _ hnot.1 (hroom _ hl))] at hlast
      exact absurd (atLeast_hex (by decide) (by decide) _ _ (mem_of_getLast? hlast.symm))
        (by decide)
  · rintro ⟨hvv, hprec, hfits⟩
    rw [← hvv]
    rw [spec_digits hprec] at hshort hfull ⊢
    unfold Field.Fits at hfits
    split at hfits
    · next hs =>
        obtain ⟨rfl, rfl⟩ := hshort hs
        rwa [layout_width_iff hle]
    next hs =>
      obtain ⟨hlen, rfl, rfl⟩ := hfull hs
      rcases hfits with ⟨hw, hw' | hminus⟩
      · rw [layout_of_le (by omega), layout_of_le (by omega)]
      · have hfill : f.fill = .right := by rw [Field.fill, if_pos hminus]
        rw [hfill, layout, layout, hlen, Nat.add_sub_cancel, hw]

/-! ## Unsigned numbers -/

theorem digitsText_layout (hf : d.field args = some (f, rest)) {nochars : Bool}
    {buf : List UInt8} (hpos : 0 < buf.length) (hlen : buf.length < 2 ^ 32)
    (hno : nochars = true → (d.spec f).precisionSet = true ∧ (d.spec f).precision = 0) :
    digitsText (d.spec f) nochars buf =
      layout (ch ' ') (ch '0') f.fill (d.spec f).fieldWidth [] ((d.spec f).main nochars buf) := by
  obtain ⟨hfw, -, hprec, -, -⟩ := spec_bounds hf
  rw [digitsText_eq hfw hlen hprec hpos hno, Spec.layout, spec_fill, Spec.main]

theorem nochars_spec {sp : Spec} (h : sp.nochars v = true) :
    sp.precisionSet = true ∧ v = 0 ∧ sp.precision = 0 := by
  unfold Spec.nochars at h
  simpa [and_assoc] using h

section

variable (hf : d.field args = some (f, rest))
include hf

theorem fits_iff {pre main : List UInt8} (hlen : pre.length + main.length < 2 ^ 32) :
    layout (ch ' ') (ch '0') f.fill (d.spec f).fieldWidth pre main = f.layout f.fill pre main ↔
      f.Fits (d.spec f).fieldWidth (pre.length + main.length) := by
  obtain ⟨-, hle, -, -, -⟩ := spec_bounds hf
  rw [Field.layout, layout_width_iff hle, Field.Fits, if_pos hlen]

theorem plain_iff {buf : List UInt8} (hb : 1 < b) (hb16 : b ≤ 16)
    (hrev : buf.reverse = if v = 0 then [ch '0'] else numeral b upcase v)
    (hnum : (numeral b upcase v).length ≤ 64) :
    digitsText (d.spec f) ((d.spec f).nochars v) buf = f.layout f.fill [] (f.digits b upcase v') ↔
      v = v' ∧ (d.spec f).precision = f.precision.getD 0 ∧
        f.Fits (d.spec f).fieldWidth (f.digits b upcase v).length := by
  obtain ⟨-, -, hlt, -, -⟩ := spec_bounds hf
  have hlen : buf.length = (if v = 0 then [ch '0'] else numeral b upcase v).length := by
    rw [← hrev, length_reverse]
  have hpos : 0 < buf.length ∧ buf.length < 2 ^ 32 := by
    rw [hlen]
    split
    · simp
    · next h0 =>
        have := numeral_length_pos upcase hb h0
        omega
  have hmain := main_eq hb (spec_precisionSet (d := d) (f := f)) hrev
  rw [← Spec.nochars] at hmain
  rw [digitsText_layout hf hpos.1 hpos.2 (fun h => ⟨(nochars_spec h).1, (nochars_spec h).2.2⟩),
    hmain]
  have hdigits : ((d.spec f).digits b upcase v).length < 2 ^ 32 := by
    rw [digits_length]
    split <;> omega
  have hnil : ([] : List UInt8).filter isHex = replicate 0 (ch '0') := rfl
  constructor
  · intro heq
    obtain ⟨hvv, hcount⟩ := layout_value hb hb16 hnil (filter_isHex_atLeast hb hb16 _) hnil
      (filter_isHex_atLeast hb hb16 _) heq
    rw [← hvv] at heq hcount
    have hprec : (d.spec f).precision = f.precision.getD 0 := by
      refine precision_eq hf fun p hp hset hfill => ?_
      have := hcount hfill hfill
      rw [hset, hp, if_pos rfl, getD_some] at this
      omega
    rw [spec_digits hprec] at heq hdigits
    have hfits := (fits_iff hf (by rw [length_nil, zero_add]; exact hdigits)).mp heq
    rw [length_nil, zero_add] at hfits
    exact ⟨hvv, hprec, hfits⟩
  · rintro ⟨rfl, hprec, hfits⟩
    rw [spec_digits hprec] at hdigits ⊢
    refine (fits_iff hf (by rw [length_nil, zero_add]; exact hdigits)).mpr ?_
    rwa [length_nil, zero_add]

theorem unsignedText_iff (hv : v < 2 ^ 64) :
    digitsText (d.spec f) ((d.spec f).nochars v) (unsignedDigits 10 false 64 v) =
        f.unsigned (v % 2 ^ d.length.valueBits abi) ↔
      d.UnsignedAgrees abi f v :=
  plain_iff hf (by decide) (by decide)
    (unsignedDigits_reverse false 64 (by decide) (by decide) (lt_pow_of_bits (by decide) hv))
    (numeral_length_le false (by decide) (lt_pow_of_bits (by decide) hv))

end

theorem octalBuf_reverse (hv : v < 2 ^ 64) (halt : sp.flags.alt = true) :
    (octalBuf sp v).reverse = if v = 0 then [ch '0'] else ch '0' :: numeral 8 false v := by
  have hlt : v < 8 ^ 63 := lt_trans hv (by decide)
  have hrev := unsignedDigits_reverse false 63 (by decide)
    (by decide) hlt
  have hlast : (unsignedDigits 8 false 63 v).getLastD 0 =
      ((unsignedDigits 8 false 63 v).reverse.head?).getD 0 := by
    simp
  rw [octalBuf, reverse_append, hrev, hlast, hrev, halt, Bool.true_and]
  by_cases h0 : v = 0
  · simp [h0]
  have hhead := numeral_head false (b := 8) (by decide) (by decide) h0
  have hpos := numeral_length_pos false (b := 8) (by decide) h0
  rw [if_neg h0, if_neg h0]
  obtain ⟨c, l, hl⟩ := exists_cons_of_length_pos hpos
  rw [hl] at hhead ⊢
  have hc : c ≠ ch '0' := fun h => hhead (by rw [h]; rfl)
  simp [hc]

theorem octal_main (hv : v < 2 ^ 64) (halt : sp.flags.alt = true) (h0 : v ≠ 0) :
    sp.main (sp.nochars v) (octalBuf sp v) =
      atLeast (ch '0') sp.precision (ch '0' :: numeral 8 false v) := by
  have hrev := octalBuf_reverse sp hv halt
  rw [if_neg h0] at hrev
  have hno : sp.nochars v = false := by
    by_contra h
    exact h0 (nochars_spec (Bool.not_eq_false _ ▸ h)).2.1
  rw [Spec.main, hno, if_neg (by decide), hrev, atLeast, ← hrev, length_reverse]

theorem octalDigits_eq (halt : f.flags.alt = true) (h0 : v ≠ 0) :
    f.octalDigits v = atLeast (ch '0') (f.precision.getD 0) (ch '0' :: numeral 8 false v) := by
  have hhead := numeral_head false (b := 8) (by decide) (by decide) h0
  have hp : f.precision.getD 1 = f.precision.getD 0 ∨
      (f.precision.getD 1 = 1 ∧ f.precision.getD 0 = 0) := by
    cases f.precision
    · simp
    · exact .inl rfl
  unfold Field.octalDigits Field.digits atLeast
  simp only [halt, Bool.true_and, length_cons, decide_eq_true_eq]
  rcases lt_or_ge (numeral 8 false v).length (f.precision.getD 1) with hlt | hge
  · -- there are zeros in front
    obtain ⟨k, hk⟩ : ∃ k, f.precision.getD 1 - (numeral 8 false v).length = k + 1 :=
      ⟨f.precision.getD 1 - (numeral 8 false v).length - 1, by omega⟩
    have hk' : f.precision.getD 0 - ((numeral 8 false v).length + 1) = k := by omega
    rw [hk, hk', if_neg (by simp [replicate_succ]), append_cons, ← replicate_succ']
  · rw [show f.precision.getD 1 - (numeral 8 false v).length = 0 by omega,
      show f.precision.getD 0 - ((numeral 8 false v).length + 1) = 0 by omega,
      replicate_zero, nil_append, if_pos hhead, nil_append]

theorem filter_isHex_octal (p : Nat) (v : Nat) :
    (atLeast (ch '0') p (ch '0' :: numeral 8 false v)).filter isHex =
      replicate (p - ((numeral 8 false v).length + 1) + 1) (ch '0') ++ numeral 8 false v := by
  have hnum : (numeral 8 false v).filter isHex = numeral 8 false v :=
    filter_eq_self.mpr (numeral_hex (by decide) (by decide))
  rw [atLeast, length_cons, filter_append, filter_replicate,
    if_pos (by decide),
    filter_cons_of_pos (show isHex (ch '0') = true by decide), hnum, append_cons,
    ← replicate_succ']

section

variable (halt : f.flags.alt = true)
include halt

theorem octalDigits_zero : f.octalDigits 0 = replicate (max (f.precision.getD 1) 1) (ch '0') := by
  unfold Field.octalDigits Field.digits atLeast
  simp only [halt, numeral_zero, length_nil, Nat.sub_zero, append_nil]
  rcases Nat.eq_zero_or_pos (f.precision.getD 1) with hp | hp
  · rw [hp]
    rfl
  · obtain ⟨k, hk⟩ : ∃ k, f.precision.getD 1 = k + 1 := ⟨f.precision.getD 1 - 1, by omega⟩
    rw [hk, if_neg (by simp [replicate_succ]), show max (k + 1) 1 = k + 1 by omega]

theorem octal_main_zero :
    (d.spec f).main ((d.spec f).nochars 0) (octalBuf (d.spec f) 0) = (d.spec f).digits 8 false 0 := by
  have hrev := octalBuf_reverse (d.spec f) (v := 0) (by decide) halt
  exact main_eq (by decide) spec_precisionSet (by exact hrev)

/-- They are those of the standard, but for a zero with the precision zero. -/
theorem octal_main_eq (hv : v < 2 ^ 64) (hprec : (d.spec f).precision = f.precision.getD 0)
    (hzero : ¬(v = 0 ∧ f.precision = some 0)) :
    (d.spec f).main ((d.spec f).nochars v) (octalBuf (d.spec f) v) = f.octalDigits v := by
  by_cases h0 : v = 0
  · subst h0
    have hp : 0 < f.precision.getD 1 := by
      rcases hf : f.precision with _ | p
      · exact Nat.one_pos
      · refine Nat.pos_of_ne_zero fun h => hzero ⟨rfl, ?_⟩
        rw [hf]
        exact congrArg some h
    rw [octal_main_zero halt, octalDigits_zero halt, spec_digits hprec, Field.digits, numeral_zero,
      atLeast, length_nil, Nat.sub_zero, append_nil, max_eq_left hp]
  · rw [octal_main _ hv halt h0, octalDigits_eq halt h0, hprec]

end

theorem octal_iff_of_alt (hf : d.field args = some (f, rest)) (halt : f.flags.alt = true)
    (hv : v < 2 ^ 64) :
    digitsText (d.spec f) ((d.spec f).nochars v) (octalBuf (d.spec f) v) = f.octal v' ↔
      v = v' ∧ (d.spec f).precision = f.precision.getD 0 ∧ ¬(v = 0 ∧ f.precision = some 0) ∧
        f.Fits (d.spec f).fieldWidth (f.octalDigits v).length := by
  obtain ⟨-, -, hlt, -, -⟩ := spec_bounds hf
  have hnum := numeral_length_le false (by decide)
    (lt_pow_of_bits (b := 8) (by decide) hv)
  have hrev := octalBuf_reverse (d.spec f) hv halt
  have hlen : (octalBuf (d.spec f) v).length =
      (if v = 0 then [ch '0'] else ch '0' :: numeral 8 false v).length := by
    rw [← hrev, length_reverse]
  have hpos : 0 < (octalBuf (d.spec f) v).length ∧ (octalBuf (d.spec f) v).length < 2 ^ 32 := by
    rw [hlen]
    split
    · simp
    · rw [length_cons]
      omega
  have hnil : ([] : List UInt8).filter isHex = replicate 0 (ch '0') := rfl
  -- how many digits the code and the standard make
  have hcode : ∃ j, ((d.spec f).main ((d.spec f).nochars v) (octalBuf (d.spec f) v)).filter isHex =
      replicate j (ch '0') ++ numeral 8 false v ∧
      j + (numeral 8 false v).length ≤ max (d.spec f).precision 100 := by
    by_cases h0 : v = 0
    · subst h0
      rw [octal_main_zero halt, Spec.digits]
      refine ⟨_, filter_isHex_atLeast (by decide) (by decide) _, ?_⟩
      split <;> omega
    · rw [octal_main _ hv halt h0]
      exact ⟨_, filter_isHex_octal _ _, by omega⟩
  have hstd : ∀ u, ∃ j, (f.octalDigits u).filter isHex =
      replicate j (ch '0') ++ numeral 8 false u ∧
      f.precision.getD 0 ≤ j + (numeral 8 false u).length := by
    intro u
    by_cases h0 : u = 0
    · subst h0
      rw [octalDigits_zero halt, numeral_zero]
      refine ⟨max (f.precision.getD 1) 1, by
        rw [append_nil, filter_replicate, if_pos (by decide)], ?_⟩
      cases f.precision
      · simp
      · simp only [getD_some]
        omega
    · rw [octalDigits_eq halt h0]
      exact ⟨_, filter_isHex_octal _ _, by omega⟩
  obtain ⟨j, hj, hjle⟩ := hcode
  obtain ⟨j', hj', hjle'⟩ := hstd v'
  rw [digitsText_layout hf hpos.1 hpos.2 (fun h => ⟨(nochars_spec h).1, (nochars_spec h).2.2⟩),
    Field.octal]
  have hfits : (d.spec f).precision = f.precision.getD 0 → ¬(v = 0 ∧ f.precision = some 0) →
      (layout (ch ' ') (ch '0') f.fill (d.spec f).fieldWidth []
          ((d.spec f).main ((d.spec f).nochars v) (octalBuf (d.spec f) v)) =
          f.layout f.fill [] (f.octalDigits v) ↔
        f.Fits (d.spec f).fieldWidth (f.octalDigits v).length) := by
    intro hprec hzero
    rw [octal_main_eq halt hv hprec hzero]
    have hshort : (f.octalDigits v).length < 2 ^ 32 := by
      by_cases h0 : v = 0
      · rw [h0, octalDigits_zero halt, length_replicate]
        rw [hprec] at hlt
        cases hp : f.precision with
        | none => decide
        | some p =>
          rw [hp] at hlt
          simp only [getD_some] at hlt ⊢
          omega
      · rw [octalDigits_eq halt h0, atLeast_length, length_cons]
        omega
    have := fits_iff hf (show ([] : List UInt8).length + (f.octalDigits v).length < 2 ^ 32 by
      rwa [length_nil, zero_add])
    rwa [length_nil, zero_add] at this
  constructor
  · intro heq
    obtain ⟨hvv, hcount⟩ := layout_value (by decide) (by decide) hnil hj hnil hj' heq
    rw [← hvv] at heq hjle'
    have hprec : (d.spec f).precision = f.precision.getD 0 := by
      refine precision_eq hf fun p hp _ hfill => ?_
      have := hcount hfill hfill
      rw [hp, getD_some] at hjle'
      omega
    have hzero : ¬(v = 0 ∧ f.precision = some 0) := by
      rintro ⟨rfl, hp⟩
      have hfill : f.fill ≠ .inside := by
        rw [Field.fill, hp]
        split
        · decide
        · simp
      have hset : (d.spec f).precisionSet = true := by
        change f.precision.isSome = true
        rw [hp]
        rfl
      have hdigits := congrArg (filter isHex) heq
      rw [Field.layout, filter_layout_blank (by decide) hfill, filter_layout_blank (by decide) hfill,
        octal_main_zero halt, octalDigits_zero halt, hp, Spec.digits, hset, if_pos rfl, hprec, hp,
        numeral_zero] at hdigits
      cases hdigits
    exact ⟨hvv, hprec, hzero, (hfits hprec hzero).mp heq⟩
  · rintro ⟨rfl, hprec, hzero, hfit⟩
    exact (hfits hprec hzero).mpr hfit

theorem octalText_iff (hf : d.field args = some (f, rest)) (hv : v < 2 ^ 64) :
    digitsText (d.spec f) ((d.spec f).nochars v) (octalBuf (d.spec f) v) =
        f.octal (v % 2 ^ d.length.valueBits abi) ↔
      d.OctalAgrees abi f v := by
  unfold Directive.OctalAgrees
  cases halt : f.flags.alt with
  | true =>
    rw [octal_iff_of_alt hf halt hv]
    simp
  | false =>
    have hbuf : octalBuf (d.spec f) v = unsignedDigits 8 false 63 v := by
      have : (d.spec f).flags.alt = false := halt
      rw [octalBuf, this]
      simp
    have hoct : ∀ u, f.octalDigits u = f.digits 8 false u := by
      intro u
      rw [Field.octalDigits, halt]
      simp
    rw [hbuf, Field.octal, hoct, hoct, plain_iff hf (by decide) (by decide)
      (unsignedDigits_reverse false 63 (by decide) (by decide) (lt_trans hv (by decide)))
      (numeral_length_le false (by decide) (lt_pow_of_bits (by decide) hv))]
    simp

/-! ## Prefixes -/

def prefixChar (upcase : Bool) : UInt8 := if upcase then ch 'X' else ch 'x'

theorem prefixChar_spec (upcase : Bool) : isHex (prefixChar upcase) = false ∧
    prefixChar upcase ≠ ch ' ' ∧ prefixChar upcase ≠ ch '0' := by
  cases upcase <;> decide

/-- What comes after the letter of the prefix, spaces apart. -/
def afterPrefix (upcase : Bool) (l : List UInt8) : List UInt8 :=
  (l.dropWhile (· ≠ prefixChar upcase)).filter (· ≠ ch ' ')

theorem afterPrefix_eq {a b : List UInt8} (ha : prefixChar upcase ∉ a) :
    afterPrefix upcase (a ++ prefixChar upcase :: b) =
      prefixChar upcase :: b.filter (· ≠ ch ' ') := by
  obtain ⟨-, hblank, -⟩ := prefixChar_spec upcase
  have hall : ∀ c ∈ a, decide (c ≠ prefixChar upcase) = true := by
    intro c hc
    simp only [decide_eq_true_eq]
    rintro rfl
    exact ha hc
  rw [afterPrefix, dropWhile_append_of_pos hall, dropWhile_cons_of_neg (by simp),
    filter_cons_of_pos (by simpa using hblank)]

theorem prefixChar_notMem_replicate (upcase : Bool) (k : Nat) :
    prefixChar upcase ∉ replicate k (ch ' ') ∧
      prefixChar upcase ∉ replicate k (ch '0') := by
  obtain ⟨-, hblank, hzero⟩ := prefixChar_spec upcase
  exact ⟨fun h => hblank (eq_of_mem_replicate h), fun h => hzero (eq_of_mem_replicate h)⟩

theorem filter_blank_of_hex {l : List UInt8} (h : ∀ c ∈ l, isHex c = true) :
    l.filter (· ≠ ch ' ') = l := by
  refine filter_eq_self.mpr fun c hc => ?_
  have := h c hc
  simp only [decide_eq_true_eq]
  rintro rfl
  cases this

/-- After the prefix that the code counts among the digits there are the digits
of the value. -/
theorem afterPrefix_code {fill : Fill} {w k : Nat} {num : List UInt8}
    (hnum : ∀ c ∈ num, isHex c = true) :
    (afterPrefix upcase (layout (ch ' ') (ch '0') fill w []
      (replicate k (ch '0') ++ ch '0' :: prefixChar upcase :: num))).length =
        num.length + 1 := by
  obtain ⟨-, -, hzero⟩ := prefixChar_spec upcase
  obtain ⟨a, r, ha, hl⟩ : ∃ a r, prefixChar upcase ∉ a ∧ layout (ch ' ') (ch '0') fill w []
        (replicate k (ch '0') ++ ch '0' :: prefixChar upcase :: num) =
        a ++ prefixChar upcase :: (num ++ replicate r (ch ' ')) := by
    have hmem : ∀ j, prefixChar upcase ∉ replicate j (ch '0') ++
        (replicate k (ch '0') ++ [ch '0']) ∧ prefixChar upcase ∉ replicate j (ch ' ') ++
        (replicate k (ch '0') ++ [ch '0']) := by
      intro j
      have h1 := prefixChar_notMem_replicate upcase j
      have h2 := prefixChar_notMem_replicate upcase k
      simp only [mem_append, mem_singleton, not_or]
      exact ⟨⟨h1.2, h2.2, hzero⟩, ⟨h1.1, h2.2, hzero⟩⟩
    rcases fill with _ | _ | _
    · exact ⟨_, 0, (hmem (w - (k + (num.length + 1 + 1)))).2, by simp [layout]⟩
    · exact ⟨_, w - (k + (num.length + 1 + 1)), (hmem 0).1, by simp [layout]⟩
    · exact ⟨_, 0, (hmem (w - (k + (num.length + 1 + 1)))).1, by simp [layout]⟩
  rw [hl, afterPrefix_eq ha, filter_append, filter_blank_of_hex hnum, filter_replicate,
    if_neg (by simp), append_nil, length_cons]

/-- After the prefix of the standard there are all the digits, and what is
filled in. -/
theorem afterPrefix_standard {fill : Fill} {w : Nat} {ds : List UInt8}
    (hds : ∀ c ∈ ds, isHex c = true) :
    (afterPrefix upcase (layout (ch ' ') (ch '0') fill w [ch '0', prefixChar upcase] ds)).length =
      (if fill = .inside then w - (2 + ds.length) else 0) + ds.length + 1 := by
  obtain ⟨-, -, hzero⟩ := prefixChar_spec upcase
  have hmem : ∀ j, prefixChar upcase ∉ replicate j (ch ' ') ++ [ch '0'] := by
    intro j
    simp only [mem_append, mem_singleton, not_or]
    exact ⟨(prefixChar_notMem_replicate upcase j).1, hzero⟩
  have hblank : ∀ (j : Nat) (c : UInt8), c ≠ ch ' ' →
      (replicate j c).filter (· ≠ ch ' ') = replicate j c := by
    intro j c hc
    rw [filter_replicate, if_pos (by simpa using hc)]
  rcases fill with _ | _ | _
  · have hl : layout (ch ' ') (ch '0') .left w [ch '0', prefixChar upcase] ds =
        (replicate (w - (2 + ds.length)) (ch ' ') ++ [ch '0']) ++
          prefixChar upcase :: ds := by simp [layout]
    rw [hl, afterPrefix_eq (hmem _), filter_blank_of_hex hds]
    simp
  · have hl : layout (ch ' ') (ch '0') .right w [ch '0', prefixChar upcase] ds =
        (replicate 0 (ch ' ') ++ [ch '0']) ++
          prefixChar upcase :: (ds ++ replicate (w - (2 + ds.length)) (ch ' ')) := by
      simp [layout]
    rw [hl, afterPrefix_eq (hmem _), filter_append, filter_blank_of_hex hds,
      filter_replicate, if_neg (by simp), append_nil]
    simp
  · have hl : layout (ch ' ') (ch '0') .inside w [ch '0', prefixChar upcase] ds =
        (replicate 0 (ch ' ') ++ [ch '0']) ++
          prefixChar upcase :: (replicate (w - (2 + ds.length)) (ch '0') ++ ds) := by
      simp [layout]
    rw [hl, afterPrefix_eq (hmem _), filter_append, filter_blank_of_hex hds,
      hblank _ _ (by decide)]
    simp

theorem hexBuf_reverse (hconv : d.conv.char = ch 'x' ↔ upcase = false) (halt : f.flags.alt = true)
    (hv : v < 2 ^ 64) :
    (hexBuf (d.spec f) v).reverse = ch '0' :: prefixChar upcase ::
      (if v = 0 then [ch '0'] else numeral 16 upcase v) := by
  have hrev := unsignedDigits_reverse upcase 62 (b := 16) (by decide)
    (by decide) (lt_trans hv (by decide))
  have hup : decide ((d.spec f).conv ≠ ch 'x') = upcase := by
    change decide (d.conv.char ≠ ch 'x') = upcase
    cases upcase <;> simp [hconv]
  have hchar : (if (d.spec f).conv = ch 'x' then ch 'x' else ch 'X') = prefixChar upcase := by
    change (if d.conv.char = ch 'x' then ch 'x' else ch 'X') = prefixChar upcase
    cases upcase <;> simp [hconv, prefixChar]
  have halt' : (d.spec f).flags.alt = true := halt
  rw [hexBuf, hup, hchar, halt', if_pos rfl, reverse_append, hrev]
  rfl

theorem hexPrefix_eq (halt : f.flags.alt = true) (upcase : Bool) (v : Nat) :
    f.hexPrefix upcase v = if v = 0 then [] else [ch '0', prefixChar upcase] := by
  rw [Field.hexPrefix, halt]
  by_cases h0 : v = 0 <;> simp [prefixChar]

/-- The digits that the code lays out for `x` and `X` with the flag `#`. -/
def hexMain (sp : Spec) (upcase : Bool) (v : Nat) : List UInt8 :=
  if sp.nochars v then []
  else
    let ds := if v = 0 then [ch '0'] else numeral 16 upcase v
    replicate (sp.precision - (ds.length + 2)) (ch '0') ++ ch '0' :: prefixChar upcase :: ds

theorem hexText_layout (hf : d.field args = some (f, rest))
    (hconv : d.conv.char = ch 'x' ↔ upcase = false) (halt : f.flags.alt = true) (hv : v < 2 ^ 64) :
    digitsText (d.spec f) ((d.spec f).nochars v) (hexBuf (d.spec f) v) =
      layout (ch ' ') (ch '0') f.fill (d.spec f).fieldWidth [] (hexMain (d.spec f) upcase v) := by
  have hnum := numeral_length_le upcase (by decide)
    (lt_pow_of_bits (b := 16) (by decide) hv)
  have hrev := hexBuf_reverse hconv halt hv
  have hlen : (hexBuf (d.spec f) v).length =
      (if v = 0 then [ch '0'] else numeral 16 upcase v).length + 2 := by
    rw [← length_reverse, hrev]
    rfl
  have hds : (if v = 0 then [ch '0'] else numeral 16 upcase v).length ≤ 64 := by
    split
    · decide
    · exact hnum
  rw [digitsText_layout hf (by omega) (by omega)
    (fun h => ⟨(nochars_spec h).1, (nochars_spec h).2.2⟩), Spec.main, hlen, hrev, hexMain]

theorem hexMain_filter (hnum : (numeral 16 upcase v).length ≤ 64) :
    ∃ j, (hexMain sp upcase v).filter isHex = replicate j (ch '0') ++ numeral 16 upcase v ∧
      j + (numeral 16 upcase v).length ≤ max sp.precision 100 := by
  obtain ⟨hXhex, -, -⟩ := prefixChar_spec upcase
  have hzero : isHex (ch '0') = true := by decide
  have hself : (numeral 16 upcase v).filter isHex = numeral 16 upcase v :=
    filter_eq_self.mpr (numeral_hex (by decide) (by decide))
  unfold hexMain
  split
  · next hno =>
      rw [(nochars_spec hno).2.1, numeral_zero]
      simp
  simp only [filter_append, filter_replicate, filter_cons_of_pos hzero, filter_cons_of_neg (Bool.not_eq_true _ ▸ hXhex)]
  by_cases h0 : v = 0
  · rw [if_pos h0, h0, numeral_zero, filter_cons_of_pos hzero, filter_nil]
    refine ⟨sp.precision - 3 + 2, ?_, ?_⟩
    · rw [append_nil, replicate_add]
      rfl
    · simp only [length_nil]
      omega
  · rw [if_neg h0, hself]
    refine ⟨sp.precision - ((numeral 16 upcase v).length + 2) + 1, ?_, by omega⟩
    rw [replicate_succ', append_assoc]
    rfl

section

variable (hf : d.field args = some (f, rest))
include hf

theorem hex_zero_iff (hprec : (d.spec f).precision = f.precision.getD 0) :
    layout (ch ' ') (ch '0') f.fill (d.spec f).fieldWidth [] (hexMain (d.spec f) upcase 0) =
        f.layout f.fill [] (f.digits 16 upcase 0) ↔
      f.precision = some 0 ∧ f.Fits (d.spec f).fieldWidth (f.digits 16 upcase 0).length := by
  obtain ⟨hXhex, hXblank, hXzero⟩ := prefixChar_spec upcase
  have hset : (d.spec f).precisionSet = f.precision.isSome := rfl
  have hnochars : (d.spec f).nochars 0 = true ↔ f.precision = some 0 := by
    rw [Spec.nochars, hset, hprec]
    cases f.precision <;> simp
  by_cases hp : f.precision = some 0
  · have hmain : hexMain (d.spec f) upcase 0 = [] := by rw [hexMain, if_pos (hnochars.mpr hp)]
    have hdigits : f.digits 16 upcase 0 = [] := by
      rw [Field.digits, hp, numeral_zero]
      rfl
    rw [hmain, hdigits, fits_iff hf (by decide)]
    simp [hp]
  · refine iff_of_false (fun heq => ?_) fun h => hp h.1
    have hmain : prefixChar upcase ∈ hexMain (d.spec f) upcase 0 := by
      rw [hexMain, if_neg (fun h => hp (hnochars.mp h))]
      simp
    have hX := congrArg (filter (· = prefixChar upcase)) heq
    rw [Field.layout, filter_layout (by simpa using hXblank.symm) (by simpa using hXzero.symm),
      filter_layout (by simpa using hXblank.symm) (by simpa using hXzero.symm)] at hX
    have hin : prefixChar upcase ∈ (hexMain (d.spec f) upcase 0).filter (· = prefixChar upcase) :=
      mem_filter.mpr ⟨hmain, by simp⟩
    rw [filter_nil, nil_append, nil_append] at hX
    rw [hX] at hin
    have hhex := atLeast_hex (by decide) (by decide) _ _ (mem_filter.mp hin).1
    rw [hXhex] at hhex
    cases hhex

/-- Another value needs that neither a precision nor zeros fill the field up. -/
theorem hex_pos_iff (hprec : (d.spec f).precision = f.precision.getD 0) (h0 : v ≠ 0)
    (hnum : (numeral 16 upcase v).length ≤ 64) :
    layout (ch ' ') (ch '0') f.fill (d.spec f).fieldWidth [] (hexMain (d.spec f) upcase v) =
        f.layout f.fill [ch '0', prefixChar upcase] (f.digits 16 upcase v) ↔
      (f.precision.getD 0 ≤ (numeral 16 upcase v).length ∧
        (f.fill = .inside → f.width ≤ (numeral 16 upcase v).length + 2)) ∧
      f.Fits (d.spec f).fieldWidth (2 + (f.digits 16 upcase v).length) := by
  obtain ⟨-, hle, -, -, -⟩ := spec_bounds hf
  have hpos := numeral_length_pos upcase (b := 16) (by decide) h0
  have hhex : ∀ c ∈ numeral 16 upcase v, isHex c = true := numeral_hex (by decide) (by decide)
  have hmain : hexMain (d.spec f) upcase v =
      replicate ((d.spec f).precision - ((numeral 16 upcase v).length + 2)) (ch '0') ++
        ch '0' :: prefixChar upcase :: numeral 16 upcase v := by
    have hno : ¬(d.spec f).nochars v = true := fun h => h0 (nochars_spec h).2.1
    rw [hexMain, if_neg hno]
    simp only [if_neg h0]
  have hdigits := field_digits_length f 16 upcase v
  have hgetD : f.precision.getD 1 ≤ max (f.precision.getD 0) 1 ∧
      f.precision.getD 0 ≤ f.precision.getD 1 := by
    cases f.precision <;> simp
  rw [hmain, hprec, Field.layout]
  constructor
  · intro heq
    have hafter := congrArg length (congrArg (afterPrefix upcase) heq)
    have hds : ∀ c ∈ f.digits 16 upcase v, isHex c = true := atLeast_hex (by decide) (by decide) _
    rw [afterPrefix_code hhex, afterPrefix_standard hds] at hafter
    have hsame : (f.digits 16 upcase v).length = (numeral 16 upcase v).length ∧
        (f.fill = .inside → f.width ≤ (numeral 16 upcase v).length + 2) := by
      split at hafter
      · next hin => omega
      · next hin => exact ⟨by omega, fun h => absurd h hin⟩
    refine ⟨⟨by omega, hsame.2⟩, ?_⟩
    have hlen := congrArg length heq
    simp only [layout_length, length_nil, length_append, length_replicate, length_cons] at hlen
    rw [Field.Fits, if_pos (by omega)]
    omega
  · rintro ⟨⟨hp, hin⟩, hfits⟩
    have hds : f.digits 16 upcase v = numeral 16 upcase v := by
      rw [Field.digits, atLeast,
        show f.precision.getD 1 - (numeral 16 upcase v).length = 0 by omega]
      rfl
    rw [hds] at hfits ⊢
    rw [Field.Fits, if_pos (by omega)] at hfits
    rw [show f.precision.getD 0 - ((numeral 16 upcase v).length + 2) = 0 by omega,
      replicate_zero, nil_append]
    by_cases hfill : f.fill = .inside
    · have := hin hfill
      rw [layout_of_le (by simp only [length_cons]; omega),
        layout_of_le (by simp only [length_cons]; omega)]
      rfl
    · have hjoin := layout_join (ch ' ') (ch '0') (d.spec f).fieldWidth
        [ch '0', prefixChar upcase] (numeral 16 upcase v) hfill
      rw [show ch '0' :: prefixChar upcase :: numeral 16 upcase v =
        [ch '0', prefixChar upcase] ++ numeral 16 upcase v from rfl, hjoin, layout_width_iff hle]
      omega

theorem hex_iff_of_alt (hconv : d.conv.char = ch 'x' ↔ upcase = false) (halt : f.flags.alt = true)
    (hv : v < 2 ^ 64) :
    digitsText (d.spec f) ((d.spec f).nochars v) (hexBuf (d.spec f) v) = f.hex upcase v' ↔
      v = v' ∧ (d.spec f).precision = f.precision.getD 0 ∧ (if v = 0 then f.precision = some 0
          else f.precision.getD 0 ≤ (numeral 16 upcase v).length ∧
            (f.fill = .inside → f.width ≤ (numeral 16 upcase v).length + 2)) ∧
        f.Fits (d.spec f).fieldWidth
          ((f.hexPrefix upcase v).length + (f.digits 16 upcase v).length) := by
  have hnum := numeral_length_le upcase (by decide)
    (lt_pow_of_bits (b := 16) (by decide) hv)
  rw [hexText_layout hf hconv halt hv, Field.hex]
  obtain ⟨j, hj, hjle⟩ := hexMain_filter (d.spec f) hnum
  have hpre : ∀ u, ∃ i, (f.hexPrefix upcase u).filter isHex = replicate i (ch '0') := by
    intro u
    rw [hexPrefix_eq halt]
    split
    · exact ⟨0, rfl⟩
    · refine ⟨1, ?_⟩
      cases upcase <;> decide
  obtain ⟨i, hi⟩ := hpre v'
  constructor
  · intro heq
    obtain ⟨hvv, hcount⟩ := layout_value (by decide) (by decide)
      (show ([] : List UInt8).filter isHex = replicate 0 (ch '0') from rfl) hj hi
      (filter_isHex_atLeast (by decide) (by decide) _) heq
    rw [← hvv] at heq hcount
    have hprec : (d.spec f).precision = f.precision.getD 0 := by
      refine precision_eq hf fun p hp _ hfill => ?_
      have := hcount hfill hfill
      rw [hp, getD_some] at this
      omega
    refine ⟨hvv, hprec, ?_⟩
    rw [hexPrefix_eq halt] at heq ⊢
    by_cases h0 : v = 0
    · subst h0
      simp only [if_true, length_nil, zero_add] at heq ⊢
      exact (hex_zero_iff hf hprec).mp heq
    · simp only [if_neg h0] at heq ⊢
      exact (hex_pos_iff hf hprec h0 hnum).mp heq
  · rintro ⟨rfl, hprec, hcond⟩
    rw [hexPrefix_eq halt] at hcond ⊢
    by_cases h0 : v = 0
    · subst h0
      simp only [if_true, length_nil, zero_add] at hcond ⊢
      exact (hex_zero_iff hf hprec).mpr hcond
    · simp only [if_neg h0] at hcond ⊢
      exact (hex_pos_iff hf hprec h0 hnum).mpr hcond

theorem hexText_iff (hconv : d.conv.char = ch 'x' ↔ upcase = false) (hv : v < 2 ^ 64) :
    digitsText (d.spec f) ((d.spec f).nochars v) (hexBuf (d.spec f) v) =
        f.hex upcase (v % 2 ^ d.length.valueBits abi) ↔
      d.HexAgrees abi f upcase v := by
  unfold Directive.HexAgrees
  cases halt : f.flags.alt with
  | true =>
    rw [hex_iff_of_alt hf hconv halt hv]
    simp
  | false =>
    have hup : decide ((d.spec f).conv ≠ ch 'x') = upcase := by
      change decide (d.conv.char ≠ ch 'x') = upcase
      cases upcase <;> simp [hconv]
    have hbuf : hexBuf (d.spec f) v = unsignedDigits 16 upcase 62 v := by
      have : (d.spec f).flags.alt = false := halt
      rw [hexBuf, this, hup]
      simp
    have hpre : ∀ u, f.hexPrefix upcase u = [] := by
      intro u
      rw [Field.hexPrefix, halt]
      simp
    rw [hbuf, Field.hex, hpre, hpre, plain_iff hf (by decide) (by decide)
      (unsignedDigits_reverse upcase 62 (by decide) (by decide) (lt_trans hv (by decide)))
      (numeral_length_le upcase (by decide) (lt_pow_of_bits (by decide) hv))]
    simp

end

/-- The characters `t` that the code takes make the same field as the
characters `t'` of the standard. -/
def Field.TextAgrees (f : Field) (fieldWidth : Nat) (t t' : List UInt8) : Prop :=
  max fieldWidth t.length = max f.width t'.length ∧
  trim (ch ' ') f.textFill t = trim (ch ' ') f.textFill t'

theorem textText_eq {sp : Spec} {t : List UInt8} (hw : sp.fieldWidth < 2 ^ 32)
    (ht : t.length < 2 ^ 32) :
    textText sp t = layout (ch ' ') (ch '0') (if sp.flags.minus then .right else .left)
      sp.fieldWidth [] t := by
  unfold textText rightText
  cases sp.flags.minus with
  | true =>
    simp [layout]
    omega
  | false =>
    by_cases hlt : t.length < sp.fieldWidth
    · have hlen : (replicate (sp.fieldWidth - t.length) (ch ' ') ++ t).length =
          sp.fieldWidth := by
        rw [length_append, length_replicate]
        omega
      simp [layout, hlt]
      omega
    · have hroom : sp.fieldWidth - t.length = 0 := by omega
      simp [layout, hroom]
      omega

theorem textText_iff (hf : d.field args = some (f, rest)) {t : List UInt8}
    (ht : t.length < 2 ^ 32) (t' : List UInt8) :
    textText (d.spec f) t = f.layout f.textFill [] t' ↔
      f.TextAgrees (d.spec f).fieldWidth t t' := by
  obtain ⟨hfw, -, -, -, -⟩ := spec_bounds hf
  have hfill : f.textFill ≠ .inside := by
    rw [Field.textFill]
    split <;> decide
  rw [textText_eq hfw ht, Field.layout, Field.TextAgrees, ← layout_text_iff hfill]
  rfl

theorem string_length (hf : d.field args = some (f, rest)) (bytes : List UInt8) :
    ((d.spec f).string bytes).length < 2 ^ 32 := by
  obtain ⟨-, -, hprec, -, -⟩ := spec_bounds hf
  rw [Spec.string, length_take]
  split <;> omega

end numbers

end Dancy.Libc.Format
