import Dancy.Libc.FormatAgrees

/-!
# Formats that agree with the standard

Every directive of a format takes the same arguments as the standard's, so the
output is right as far as all directives agree. A directive that does not agree
shows at the latest when the format ends with it.
-/

namespace Dancy.Libc.Format

open Dancy.Lib List Option

/-! ## Directives -/

/-- The characters that the code takes for `c` and `s`. -/
def Directive.taken (abi : Abi) (d : Directive) (f : Field) : Arg → List UInt8
  | .word w => [UInt8.ofNat w]
  | .str bytes => (d.spec f).string bytes
  | .wide chars => (d.spec f).string ((Arg.wide chars).bytes abi)

/-- The condition on the value of a directive, by its conversion. -/
def Directive.ValueAgrees (abi : Abi) (d : Directive) (f : Field) (arg : Arg) : Prop :=
  match d.conv, arg with
  | .d, .word w | .i, .word w => d.SignedAgrees abi f ((w : Int).bmod (2 ^ d.length.bits abi))
  | .u, .word w => d.UnsignedAgrees abi f (w % 2 ^ d.length.bits abi)
  | .o, .word w => d.OctalAgrees abi f (w % 2 ^ d.length.bits abi)
  | .x, .word w => d.HexAgrees abi f false (w % 2 ^ d.length.bits abi)
  | .X, .word w => d.HexAgrees abi f true (w % 2 ^ d.length.bits abi)
  | .c, arg | .s, arg =>
    f.TextAgrees (d.spec f).fieldWidth (d.taken abi f arg) ((d.characters abi f arg).getD [])
  | _, _ => True

def Directive.Agrees (abi : Abi) (d : Directive) (args : List Arg) : Prop :=
  match d.field args with
  | some (f, arg :: _) => d.ValueAgrees abi f arg
  | _ => True

theorem LengthModifier.bits_bounds (abi : Abi) (length : LengthModifier) :
    0 < length.bits abi ∧ length.bits abi ≤ 64 := by
  cases length <;> cases abi <;> decide

theorem mod_bits_lt (abi : Abi) (length : LengthModifier) (w : Nat) :
    w % 2 ^ length.bits abi < 2 ^ 64 :=
  lt_of_lt_of_le (Nat.mod_lt _ (Nat.two_pow_pos _))
    (Nat.pow_le_pow_right (by decide) (length.bits_bounds abi).2)

theorem bmod_bits_lt (abi : Abi) (length : LengthModifier) (w : Nat) :
    ((w : Int).bmod (2 ^ length.bits abi)).natAbs < 2 ^ 64 := by
  obtain ⟨hpos, hle⟩ := length.bits_bounds abi
  have hpow : 2 ^ length.bits abi ≤ 2 ^ 64 := Nat.pow_le_pow_right (by decide) hle
  have hlt : ((w : Int).bmod (2 ^ length.bits abi)).natAbs ≤ 2 ^ length.bits abi / 2 := by
    have h1 := Int.bmod_lt (x := (w : Int)) (m := 2 ^ length.bits abi) (Nat.two_pow_pos _)
    have h2 := Int.le_bmod (x := (w : Int)) (m := 2 ^ length.bits abi) (Nat.two_pow_pos _)
    omega
  have := Nat.div_lt_self (Nat.two_pow_pos (length.bits abi)) (show 1 < 2 by decide)
  omega

theorem ofNat_mod {k : Nat} (hk : 8 ≤ k) (w : Nat) :
    UInt8.ofNat (w % 2 ^ k) = UInt8.ofNat w := by
  rw [← UInt8.ofNat_mod_size,
    Nat.mod_mod_of_dvd _ (pow_dvd_pow 2 hk), UInt8.ofNat_mod_size]

section directive

variable {abi : Abi} {d : Directive} {f : Field} {args rest : List Arg}

variable {left : List Arg} {t' : List UInt8}

section

variable (hf : d.field args = some (f, rest))
include hf

theorem standard_number (hc : d.conv ≠ .c) (hs : d.conv ≠ .s)
    (h : d.standard abi args = some (t', left)) : ∃ w, rest = .word w :: left := by
  unfold Directive.standard at h
  rw [hf] at h
  rcases rest with _ | ⟨arg, rest⟩
  · cases hconv : d.conv <;> simp [hconv, vaSigned, vaUnsigned] at h
  cases arg with
  | word w =>
    refine ⟨w, ?_⟩
    cases hconv : d.conv with
    | c => exact absurd hconv hc
    | s => exact absurd hconv hs
    | _ =>
      simp only [hconv, vaSigned, vaUnsigned, map_some, some.injEq, Prod.mk.injEq] at h
      rw [h.2]
  | str bytes | wide chars =>
    cases hconv : d.conv with
    | c => exact absurd hconv hc
    | s => exact absurd hconv hs
    | _ => simp [hconv, vaSigned, vaUnsigned] at h

theorem specText_number (hc : d.conv ≠ .c) (hs : d.conv ≠ .s) {w : Nat}
    (h : d.standard abi args = some (t', left)) (hrest : rest = .word w :: left) :
    ∃ t, specText abi (d.spec f) rest = .ok (t, left) ∧
      (t = t' ↔ d.ValueAgrees abi f (.word w)) := by
  have hv := mod_bits_lt abi d.length w
  subst hrest
  unfold Directive.standard at h
  rw [hf] at h
  unfold Directive.ValueAgrees specText
  have hchar : (d.spec f).conv = d.conv.char := rfl
  cases hconv : d.conv with
  | c => exact absurd hconv hc
  | s => exact absurd hconv hs
  | d =>
    have hch : (d.spec f).conv = ch 'd' := by rw [hchar, hconv]; rfl
    simp only [hconv, vaSigned, map_some, some.injEq, Prod.mk.injEq] at h
    refine ⟨_, by simp only [hch]; rfl, ?_⟩
    rw [← h.1]
    exact signedText_iff hf (bmod_bits_lt abi d.length w)
  | i =>
    have hch : (d.spec f).conv = ch 'i' := by rw [hchar, hconv]; rfl
    simp only [hconv, vaSigned, map_some, some.injEq, Prod.mk.injEq] at h
    refine ⟨_, by simp only [hch]; rfl, ?_⟩
    rw [← h.1]
    exact signedText_iff hf (bmod_bits_lt abi d.length w)
  | u =>
    have hch : (d.spec f).conv = ch 'u' := by rw [hchar, hconv]; rfl
    simp only [hconv, vaUnsigned, map_some, some.injEq, Prod.mk.injEq] at h
    refine ⟨_, by simp only [hch]; rfl, ?_⟩
    rw [← h.1]
    exact unsignedText_iff hf hv
  | o =>
    have hch : (d.spec f).conv = ch 'o' := by rw [hchar, hconv]; rfl
    simp only [hconv, vaUnsigned, map_some, some.injEq, Prod.mk.injEq] at h
    refine ⟨_, by simp only [hch]; rfl, ?_⟩
    rw [← h.1]
    exact octalText_iff hf hv
  | x =>
    have hch : (d.spec f).conv = ch 'x' := by rw [hchar, hconv]; rfl
    simp only [hconv, vaUnsigned, map_some, some.injEq, Prod.mk.injEq] at h
    refine ⟨_, by simp only [hch]; rfl, ?_⟩
    rw [← h.1]
    exact hexText_iff hf (by rw [hconv]; decide) hv
  | X =>
    have hch : (d.spec f).conv = ch 'X' := by rw [hchar, hconv]; rfl
    simp only [hconv, vaUnsigned, map_some, some.injEq, Prod.mk.injEq] at h
    refine ⟨_, by simp only [hch]; rfl, ?_⟩
    rw [← h.1]
    exact hexText_iff hf (by rw [hconv]; decide) hv

theorem specText_text (hconv : d.conv = .c ∨ d.conv = .s)
    (h : d.standard abi args = some (t', left)) :
    ∃ arg, rest = arg :: left ∧ ∃ t, specText abi (d.spec f) rest = .ok (t, left) ∧
      (t = t' ↔ d.ValueAgrees abi f arg) := by
  have hchar : (d.spec f).conv = d.conv.char := rfl
  obtain ⟨arg, text, hrest, htext, hlaid⟩ : ∃ arg text, rest = arg :: left ∧
      d.characters abi f arg = some text ∧ f.layout f.textFill [] text = t' := by
    unfold Directive.standard at h
    rw [hf] at h
    rcases rest with _ | ⟨arg, rest⟩
    · rcases hconv with hconv | hconv <;> simp [hconv] at h
    rcases hchars : d.characters abi f arg with _ | text
    · rcases hconv with hconv | hconv <;> simp [hconv, hchars] at h
    · refine ⟨arg, text, ?_⟩
      rcases hconv with hconv | hconv <;> simp [hconv, hchars] at h <;>
        exact ⟨by rw [h.2], hchars, h.1⟩
  refine ⟨arg, hrest, textText (d.spec f) (d.taken abi f arg), ?_, ?_⟩
  · rw [hrest]
    unfold specText
    rcases hconv with hconv | hconv
    · have hch : (d.spec f).conv = ch 'c' := by rw [hchar, hconv]; rfl
      cases arg with
      | str bytes | wide chars => simp [Directive.characters, hconv] at htext
      | word w =>
        have hbits : 8 ≤ if (d.spec f).length = .none then 32 else abi.sizeBits := by
          split
          · decide
          · cases abi <;> decide
        have hlow := ofNat_mod hbits w
        simp only [hch, vaUnsigned, hlow]
        rfl
    · have hch : (d.spec f).conv = ch 's' := by rw [hchar, hconv]; rfl
      cases arg with
      | word w => simp [Directive.characters, hconv] at htext
      | str bytes | wide chars =>
        simp only [hch]
        rfl
  · have hlen : (d.taken abi f arg).length < 2 ^ 32 := by
      cases arg with
      | word w => exact Nat.one_lt_two_pow (by decide)
      | str bytes => exact string_length hf bytes
      | wide chars => exact string_length hf _
    have hvalue : d.ValueAgrees abi f arg ↔
        f.TextAgrees (d.spec f).fieldWidth (d.taken abi f arg) text := by
      unfold Directive.ValueAgrees
      rcases hconv with hconv | hconv <;> simp only [hconv, htext, getD_some]
    rw [hvalue, ← hlaid]
    exact textText_iff hf hlen text

end

/-- **A directive.** The code takes the arguments that the standard takes, and
its text is that of the standard just when the directive agrees. -/
theorem Directive.text_iff (h : d.standard abi args = some (t', rest)) :
    ∃ t, d.text abi args = some (t, rest) ∧ (t = t' ↔ d.Agrees abi args) := by
  rcases hf : d.field args with _ | ⟨f, left⟩
  · rw [Directive.standard, hf] at h
    cases h
  have hall : ∃ arg, left = arg :: rest ∧ ∃ t, specText abi (d.spec f) left = .ok (t, rest) ∧
      (t = t' ↔ d.ValueAgrees abi f arg) := by
    by_cases hconv : d.conv = .c ∨ d.conv = .s
    · exact specText_text hf hconv h
    · rw [not_or] at hconv
      obtain ⟨w, hleft⟩ := standard_number hf hconv.1 hconv.2 h
      exact ⟨_, hleft, specText_number hf hconv.1 hconv.2 h hleft⟩
  obtain ⟨arg, hleft, t, ht, hiff⟩ := hall
  refine ⟨t, by rw [Directive.text, hf]; dsimp only; rw [ht]; rfl, ?_⟩
  rw [hiff, Directive.Agrees, hf, hleft]

end directive

/-! ## Formats -/

def AllAgree (abi : Abi) : List Piece → List Arg → Prop
  | [], _ => True
  | .char _ :: pieces, args => AllAgree abi pieces args
  | .percent :: pieces, args => AllAgree abi pieces args
  | .directive d :: pieces, args =>
    d.Agrees abi args ∧ ∀ text rest, d.standard abi args = some (text, rest) →
      AllAgree abi pieces rest

def Printed.stored : Printed → Option (List UInt8)
  | .returned _ o => some o.s
  | _ => none

/-- Whatever room there is, what is stored is the start of the standard's
output, with a zero after it. -/
def Prints (abi : Abi) (pieces : List Piece) (args : List Arg) : Prop :=
  ∀ text rest, standard abi pieces args = some (text, rest) → ∀ n,
    (myVsnprintf abi n (formatOf pieces) args).stored =
      some (if n = 0 then [] else text.take (n - 1) ++ [0])

section formats

variable {abi : Abi} {pieces : List Piece} {args rest : List Arg} {text : List UInt8}

theorem standard_directive {d : Directive} (h : standard abi (.directive d :: pieces) args =
    some (text, rest)) :
    ∃ first left last, d.standard abi args = some (first, left) ∧
      standard abi pieces left = some (last, rest) ∧ text = first ++ last := by
  rw [standard] at h
  rcases hd : d.standard abi args with _ | ⟨first, left⟩
  · rw [hd] at h
    cases h
  rw [hd] at h
  dsimp only at h
  rcases hp : standard abi pieces left with _ | ⟨last, rest'⟩
  · rw [hp] at h
    cases h
  · rw [hp] at h
    cases h
    exact ⟨first, left, last, rfl, hp, rfl⟩

theorem standard_append (after : List Piece) : ∀ {before : List Piece} {args rest : List Arg}
    {text : List UInt8}, standard abi (before ++ after) args = some (text, rest) →
      ∃ first left, standard abi before args = some (first, left) := by
  intro before
  induction before with
  | nil => exact fun _ => ⟨_, _, rfl⟩
  | cons p before ih =>
    intro args rest text h
    cases p with
    | char c | percent =>
      obtain ⟨⟨last, left⟩, hlast, -⟩ := map_eq_some_iff.mp h
      obtain ⟨first, left, hfirst⟩ := ih hlast
      exact ⟨_, _, by rw [standard, hfirst]; rfl⟩
    | directive d =>
      obtain ⟨first, left, last, hd, hlast, -⟩ := standard_directive h
      obtain ⟨second, left', hsecond⟩ := ih hlast
      exact ⟨_, _, by rw [standard, hd]; dsimp only; rw [hsecond]; rfl⟩

theorem AllAgree.append {before after : List Piece} : ∀ {args : List Arg},
    AllAgree abi (before ++ after) args → AllAgree abi before args := by
  induction before with
  | nil => exact fun _ => trivial
  | cons p before ih =>
    intro args h
    cases p with
    | char c | percent => exact @ih args h
    | directive d => exact ⟨h.1, fun text rest hd => ih (h.2 text rest hd)⟩

/-- The code makes a text of every format that has one by the standard, and
takes the same arguments. -/
theorem codeText_some : ∀ {args rest : List Arg} {text : List UInt8},
    standard abi pieces args = some (text, rest) → ∃ t, codeText abi pieces args = some (t, rest) := by
  induction pieces with
  | nil => exact fun h => ⟨_, h⟩
  | cons p pieces ih =>
    intro args rest text h
    cases p with
    | char c | percent =>
      obtain ⟨⟨last, left⟩, hlast, heq⟩ := map_eq_some_iff.mp h
      cases heq
      obtain ⟨t, ht⟩ := ih hlast
      exact ⟨_, by rw [codeText, ht]; rfl⟩
    | directive d =>
      obtain ⟨first, left, last, hd, hlast, -⟩ := standard_directive h
      obtain ⟨t, ht, -⟩ := d.text_iff hd
      obtain ⟨t', ht'⟩ := ih hlast
      exact ⟨_, by rw [codeText, ht]; dsimp only; rw [ht']; rfl⟩

theorem AllAgree.codeText : ∀ {args rest : List Arg} {text : List UInt8}, AllAgree abi pieces args →
    standard abi pieces args = some (text, rest) →
      Format.codeText abi pieces args = some (text, rest) := by
  induction pieces with
  | nil => exact fun _ h => h
  | cons p pieces ih =>
    intro args rest text hagrees h
    cases p with
    | char c | percent =>
      obtain ⟨⟨last, left⟩, hlast, heq⟩ := map_eq_some_iff.mp h
      rw [Format.codeText, ih hagrees hlast]
      exact congrArg some heq
    | directive d =>
      obtain ⟨first, left, last, hd, hlast, rfl⟩ := standard_directive h
      obtain ⟨t, ht, hiff⟩ := d.text_iff hd
      rw [Format.codeText, ht]
      dsimp only
      rw [ih (hagrees.2 _ _ hd) hlast, hiff.mpr hagrees.1]
      rfl

/-- If every beginning of a format has the text of the standard, all its
directives agree: one that does not agree would be the last of a beginning. -/
theorem allAgree_of_codeText : ∀ {args rest : List Arg} {text : List UInt8},
    standard abi pieces args = some (text, rest) →
    (∀ beginning, beginning <+: pieces → ∀ r, standard abi beginning args = some r →
      codeText abi beginning args = some r) → AllAgree abi pieces args := by
  induction pieces with
  | nil => exact fun _ _ => trivial
  | cons p pieces ih =>
    intro args rest text h hall
    cases p with
    | char c =>
      obtain ⟨⟨last, left⟩, hlast, -⟩ := map_eq_some_iff.mp h
      refine ih hlast fun b hb r hr => ?_
      obtain ⟨t, ht⟩ := codeText_some hr
      have hcons := hall (.char c :: b) (cons_prefix_cons.mpr ⟨rfl, hb⟩) (c :: r.1, r.2)
        (by rw [standard, hr]; rfl)
      rw [codeText, ht] at hcons
      have heq : t = r.1 := by simpa using hcons
      rw [ht, heq]
    | percent =>
      obtain ⟨⟨last, left⟩, hlast, -⟩ := map_eq_some_iff.mp h
      refine ih hlast fun b hb r hr => ?_
      obtain ⟨t, ht⟩ := codeText_some hr
      have hcons := hall (.percent :: b) (cons_prefix_cons.mpr ⟨rfl, hb⟩)
        (ch '%' :: r.1, r.2) (by rw [standard, hr]; rfl)
      rw [codeText, ht] at hcons
      have heq : t = r.1 := by simpa using hcons
      rw [ht, heq]
    | directive d =>
      obtain ⟨first, left, last, hd, hlast, -⟩ := standard_directive h
      obtain ⟨t, ht, hiff⟩ := d.text_iff hd
      have hone := hall [.directive d] (cons_prefix_cons.mpr ⟨rfl, nil_prefix⟩)
        (first, left) (by rw [standard, hd]; simp [standard])
      have htext : t = first := by
        rw [codeText, ht] at hone
        simpa [codeText] using hone
      refine ⟨hiff.mp htext, fun first' left' hd' => ?_⟩
      rw [hd] at hd'
      cases hd'
      refine ih hlast fun b hb r hr => ?_
      obtain ⟨t', ht'⟩ := codeText_some hr
      have hcons := hall (.directive d :: b) (cons_prefix_cons.mpr ⟨rfl, hb⟩)
        (first ++ r.1, r.2) (by rw [standard, hd]; dsimp only; rw [hr]; rfl)
      rw [codeText, ht, htext] at hcons
      dsimp only at hcons
      rw [ht'] at hcons
      have heq : t' = r.1 := by simpa using hcons
      rw [ht', heq]

theorem prints_iff (hvalid : ∀ p ∈ pieces, p.Valid)
    (hstd : standard abi pieces args = some (text, rest)) :
    Prints abi pieces args ↔ codeText abi pieces args = some (text, rest) := by
  obtain ⟨t, hcode⟩ := codeText_some hstd
  have hstored : ∀ n, (myVsnprintf abi n (formatOf pieces) args).stored =
      some (if n = 0 then [] else t.take (n - 1) ++ [0]) := by
    intro n
    cases n with
    | zero => rfl
    | succ n =>
      obtain ⟨counts, hn⟩ := myVsnprintf_eq abi hvalid hcode n
      rw [hn, if_neg (Nat.succ_ne_zero n)]
      rfl
  rw [hcode]
  constructor
  · intro h
    have hlong := h _ _ hstd (max t.length text.length + 1)
    rw [hstored, if_neg (Nat.succ_ne_zero _), if_neg (Nat.succ_ne_zero _), Nat.add_sub_cancel,
      take_of_length_le (le_max_left ..), take_of_length_le (le_max_right ..)]
      at hlong
    have heq : t = text := by simpa using hlong
    rw [heq]
  · intro heq text' rest' hstd' n
    rw [hstd] at hstd'
    cases heq
    cases hstd'
    exact hstored n

end formats

/-- **Formatted output.** A format is printed as the standard says, and so is
every beginning of it, just when all its directives agree. -/
theorem prints_exact (abi : Abi) {pieces : List Piece} (hvalid : ∀ p ∈ pieces, p.Valid)
    {args rest : List Arg} {text : List UInt8}
    (hstd : standard abi pieces args = some (text, rest)) :
    (∀ beginning, beginning <+: pieces → Prints abi beginning args) ↔ AllAgree abi pieces args := by
  have hvalid' : ∀ beginning, beginning <+: pieces → ∀ p ∈ beginning, p.Valid :=
    fun b hb p hp => hvalid p (hb.subset hp)
  constructor
  · refine fun h => allAgree_of_codeText hstd fun b hb r hr => ?_
    exact (prints_iff (hvalid' b hb) hr).mp (h b hb)
  · rintro h b ⟨after, rfl⟩
    obtain ⟨first, left, hfirst⟩ := standard_append after hstd
    exact (prints_iff (hvalid' b (prefix_append b after)) hfirst).mpr
      (h.append.codeText hfirst)

/-- The directive `%-5d` of 42. -/
theorem prints_exact_number :
    (∀ beginning, beginning <+: [.directive ⟨[.minus], .digits [5], none, .none, .d⟩] →
      Prints .lp64 beginning [.word 42]) ↔
    AllAgree .lp64 [.directive ⟨[.minus], .digits [5], none, .none, .d⟩] [.word 42] :=
  prints_exact .lp64 (by simp [Piece.Valid, Directive.Valid])
    (show standard .lp64 [.directive ⟨[.minus], .digits [5], none, .none, .d⟩] [.word 42] =
      some ([52, 50, 32, 32, 32], []) by decide)

/-- The standard prints `0` for a zero with `%#x`, and the code `0x0`. -/
theorem alt_zero_prefixed :
    standard .lp64 [.directive ⟨[.alt], .digits [], none, .none, .x⟩] [.word 0] =
      some ([48], []) ∧
    (myVsnprintf .lp64 8 [37, 35, 120] [.word 0]).stored = some [48, 120, 48, 0] ∧
    ¬Prints .lp64 [.directive ⟨[.alt], .digits [], none, .none, .x⟩] [.word 0] := by
  have hstd : standard .lp64 [.directive ⟨[.alt], .digits [], none, .none, .x⟩] [.word 0] =
      some ([48], []) := by decide
  have hcode : (myVsnprintf .lp64 8 [37, 35, 120] [.word 0]).stored = some [48, 120, 48, 0] := by
    decide
  refine ⟨hstd, hcode, fun h => ?_⟩
  have hprints := h _ _ hstd 8
  rw [show formatOf [.directive ⟨[.alt], .digits [], none, .none, .x⟩] = [37, 35, 120] by decide,
    hcode] at hprints
  exact absurd hprints (by decide)

end Dancy.Libc.Format
