import Dancy.Libc.FormatParse
import Mathlib.Data.Nat.Digits.Lemmas

/-!
# The text of a number

The digits in `buf` are the numeral of the value, and a conversion lays them
out as the standard does, with the width and the precision it has read. A
prefix counts as digits.
-/

namespace Dancy.Libc.Format

open Dancy.Lib List

/-! ## The digits in `buf` -/

section digits

variable {b : Nat} {upcase : Bool}

theorem unsignedLoop_length_le : ∀ room v : Nat, (unsignedLoop b upcase room v).length ≤ room
  | 0, _ => le_refl 0
  | room + 1, v => by
      rw [unsignedLoop]
      split
      · simp
      · exact Nat.succ_le_succ (unsignedLoop_length_le room (v / b))

theorem unsignedLoop_eq (hb : 1 < b) : ∀ {room v : Nat}, v < b ^ room →
    unsignedLoop b upcase room v = (Nat.digits b v).map (digitChar upcase)
  | 0, v, hv => by
      have : v = 0 := by
        rw [pow_zero] at hv
        omega
      rw [this, Nat.digits_zero]
      rfl
  | room + 1, v, hv => by
      rw [unsignedLoop]
      split
      · next h =>
          have h0 : v = 0 := by
            have := Nat.div_add_mod v b
            rw [h.1, h.2] at this
            omega
          rw [h0, Nat.digits_zero]
          rfl
      · next h =>
          have hpos : 0 < v := by
            refine Nat.pos_of_ne_zero fun h0 => h ?_
            rw [h0]
            simp
          have hdiv : v / b < b ^ room := by
            refine Nat.div_lt_of_lt_mul ?_
            rw [mul_comm, ← pow_succ]
            exact hv
          simp [Nat.digits_def' hb hpos, unsignedLoop_eq hb hdiv]

theorem unsignedDigits_reverse (upcase : Bool) (room : Nat) (hb : 1 < b) {v : Nat} (hroom : 0 < room)
    (hv : v < b ^ room) :
    (unsignedDigits b upcase room v).reverse =
      if v = 0 then [ch '0'] else numeral b upcase v := by
  obtain ⟨room, rfl⟩ : ∃ k, room = k + 1 := ⟨room - 1, by omega⟩
  have hdiv : v / b < b ^ room := by
    refine Nat.div_lt_of_lt_mul ?_
    rwa [mul_comm, ← pow_succ]
  rw [unsignedDigits, Nat.add_sub_cancel, unsignedLoop_eq hb hdiv]
  split
  · next h0 =>
      rw [h0, Nat.zero_div, Nat.zero_mod, Nat.digits_zero]
      rfl
  · next h0 =>
      simp [numeral, Nat.digits_def' hb (Nat.pos_of_ne_zero h0)]

theorem numeral_zero : numeral b upcase 0 = [] := by
  rw [numeral, Nat.digits_zero]
  rfl

section

variable (upcase : Bool) (hb : 1 < b)
include hb

theorem numeral_length_pos {v : Nat} (hv : v ≠ 0) : 0 < (numeral b upcase v).length := by
  rw [numeral, Nat.digits_def' hb (Nat.pos_of_ne_zero hv)]
  simp

theorem numeral_length_le {room v : Nat} (hv : v < b ^ room) :
    (numeral b upcase v).length ≤ room := by
  rw [numeral, length_reverse, ← unsignedLoop_eq hb hv]
  exact unsignedLoop_length_le room v

theorem numeral_head (hb16 : b ≤ 16) {v : Nat} (hv : v ≠ 0) :
    (numeral b upcase v).head? ≠ some (ch '0') := by
  have hne : Nat.digits b v ≠ [] := Nat.digits_ne_nil_iff_ne_zero.mpr hv
  have hdigit : ∀ (u : Bool) (e : Fin 16), digitChar u e.val = ch '0' → e.val = 0 := by decide
  rw [numeral, head?_reverse, getLast?_map, getLast?_eq_some_getLast hne,
    Option.map_some, ne_eq, Option.some.injEq]
  intro h0
  have hlt := Nat.digits_lt_base hb (getLast_mem hne)
  exact Nat.getLast_digit_ne_zero b hv (hdigit upcase ⟨_, lt_of_lt_of_le hlt hb16⟩ h0)

end

end digits

theorem signedLoop_eq : ∀ (room : Nat) (ival : Int),
    signedLoop room ival = unsignedLoop 10 false room ival.natAbs
  | 0, _ => rfl
  | room + 1, ival => by
      have hdiv : (ival.tdiv 10).natAbs = ival.natAbs / 10 := Int.natAbs_tdiv ival 10
      have hmod : (ival.tmod 10).natAbs = ival.natAbs % 10 := Int.natAbs_tmod ival 10
      have h1 : ival.tdiv 10 = 0 ↔ ival.natAbs / 10 = 0 := by rw [← hdiv, Int.natAbs_eq_zero]
      have h2 : ival.tmod 10 = 0 ↔ ival.natAbs % 10 = 0 := by rw [← hmod, Int.natAbs_eq_zero]
      rw [signedLoop, unsignedLoop, signedLoop_eq room, hdiv, hmod]
      simp only [h1, h2]

theorem signedDigits_eq (room : Nat) (ival : Int) :
    signedDigits room ival = unsignedDigits 10 false room ival.natAbs := by
  have hdiv : (ival.tdiv 10).natAbs = ival.natAbs / 10 := Int.natAbs_tdiv ival 10
  have hmod : (ival.tmod 10).natAbs = ival.natAbs % 10 := Int.natAbs_tmod ival 10
  rw [signedDigits, unsignedDigits, signedLoop_eq, hdiv, hmod]

/-! ## The layout -/

/-- Where the code fills the field of a number. -/
def Spec.fill (sp : Spec) : Fill :=
  if sp.flags.minus then .right
  else if sp.flags.zero && !sp.precisionSet then .inside
  else .left

def Spec.layout (sp : Spec) (pre main : List UInt8) : List UInt8 :=
  Lib.layout (ch ' ') (ch '0') sp.fill sp.fieldWidth pre main

theorem rightText_short {fieldWidth : Nat} {t : List UInt8} (h : t.length < 2 ^ 32) :
    rightText fieldWidth t = t ++ replicate (fieldWidth - t.length) (ch ' ') := by
  rw [rightText, Nat.mod_eq_of_lt h]

theorem rightText_full {fieldWidth : Nat} {t : List UInt8} (h : t.length = fieldWidth)
    (hlt : fieldWidth < 2 ^ 32) : rightText fieldWidth t = t := by
  rw [rightText_short (h ▸ hlt), h, Nat.sub_self, replicate_zero, append_nil]

variable {sp : Spec}

section

variable (hfw : sp.fieldWidth < 2 ^ 32)
include hfw

theorem padded_eq {body : List UInt8} (hbody : body.length < 2 ^ 32) :
    rightText sp.fieldWidth ((if !sp.flags.minus && decide (body.length < sp.fieldWidth) then
        replicate (sp.fieldWidth - body.length) sp.pad else []) ++ body) =
      sp.layout [] body := by
  unfold Spec.layout Spec.fill Spec.pad Lib.layout
  cases sp.flags.minus with
  | true =>
    simp only [length_nil, zero_add]
    exact rightText_short hbody
  | false =>
    simp only [Bool.not_false, Bool.true_and, Bool.and_true, decide_eq_true_eq, length_nil, zero_add, append_nil]
    rcases lt_or_ge body.length sp.fieldWidth with hlt | hge
    · have hlen : ∀ c : UInt8, (replicate (sp.fieldWidth - body.length) c ++ body).length =
          sp.fieldWidth := fun c => by
        rw [length_append, length_replicate]
        omega
      rw [if_pos hlt, rightText_full (hlen _) hfw]
      split <;> rfl
    · rw [if_neg (by omega), nil_append, rightText_short hbody,
        show sp.fieldWidth - body.length = 0 by omega, replicate_zero, append_nil]
      split <;> rfl

theorem padded_nil {k : Nat} (hk : k ≤ sp.fieldWidth) (hset : sp.precisionSet = true) :
    rightText sp.fieldWidth (replicate k sp.pad) = sp.layout [] [] := by
  have hpad : sp.pad = ch ' ' := by
    rw [Spec.pad, hset]
    simp
  have hfill : sp.fill ≠ .inside := by
    rw [Spec.fill, hset]
    split
    · decide
    · simp
  rw [hpad, rightText_short (by rw [length_replicate]; omega), length_replicate,
    replicate_append_replicate, show k + (sp.fieldWidth - k) = sp.fieldWidth by omega]
  unfold Spec.layout Lib.layout
  rcases hf : sp.fill with _ | _ | _
  · simp
  · simp
  · exact absurd hf hfill

theorem digitsText_eq {nochars : Bool} {buf : List UInt8} (hlen : buf.length < 2 ^ 32)
    (hprec : sp.precision < 2 ^ 32) (hbuf : 0 < buf.length)
    (hno : nochars = true → sp.precisionSet = true ∧ sp.precision = 0) :
    digitsText sp nochars buf = sp.layout [] (if nochars then [] else
      replicate (sp.precision - buf.length) (ch '0') ++ buf.reverse) := by
  unfold digitsText
  cases nochars with
  | true =>
    obtain ⟨hset, h0⟩ := hno rfl
    simp only [h0, Nat.max_zero, Nat.sub_self, replicate_zero, if_true, append_nil]
    split
    · next h =>
        simp only [Bool.and_eq_true, decide_eq_true_eq] at h
        exact padded_nil hfw (by omega) hset
    · exact padded_nil hfw (Nat.zero_le _) hset
  | false =>
    have hmax : (replicate (max buf.length sp.precision - buf.length) (ch '0') ++
        buf.reverse).length = max buf.length sp.precision := by
      rw [length_append, length_replicate, length_reverse]
      omega
    have hshort : (replicate (max buf.length sp.precision - buf.length) (ch '0') ++
        buf.reverse).length < 2 ^ 32 := by omega
    have hpad := padded_eq hfw hshort
    rw [hmax] at hpad
    simp only [Bool.false_eq_true, if_false, Nat.add_zero]
    rw [hpad, show max buf.length sp.precision - buf.length = sp.precision - buf.length by omega]

end

def Spec.main (sp : Spec) (nochars : Bool) (buf : List UInt8) : List UInt8 :=
  if nochars then [] else replicate (sp.precision - buf.length) (ch '0') ++ buf.reverse

theorem Spec.sign_length_le (sp : Spec) (ival : Int) : (sp.sign ival).length ≤ 1 := by
  unfold Spec.sign
  split
  · rfl
  split
  · exact le_refl 1
  · split
    · rfl
    · exact Nat.zero_le 1

section

variable {nochars : Bool} {buf : List UInt8}
  (hno : nochars = true → sp.precision = 0 ∧ buf.length = 1)
include hno

theorem Spec.main_eq : replicate (max buf.length sp.precision - buf.length) (ch '0') ++
    (if nochars then [] else buf.reverse) = sp.main nochars buf := by
  unfold Spec.main
  cases nochars with
  | true =>
    rw [(hno rfl).1, Nat.max_zero, Nat.sub_self]
    rfl
  | false =>
    rw [show max buf.length sp.precision - buf.length = sp.precision - buf.length by omega]
    rfl

theorem Spec.main_length : (sp.main nochars buf).length =
    max buf.length sp.precision - (if nochars then 1 else 0) := by
  unfold Spec.main
  cases nochars with
  | true =>
    rw [(hno rfl).1, (hno rfl).2]
    rfl
  | false =>
    simp only [Bool.false_eq_true, if_false, length_append, length_replicate, length_reverse]
    omega

end

/-- The text of `d` and `i`: the width counts for nothing when the sign and the
digits are `2 ^ 32` characters. -/
theorem signedText_eq {ival : Int} {sign main : List UInt8} (hfw : sp.fieldWidth < 2 ^ 32)
    (hprec : sp.precision < 2 ^ 32) (hbuf : 0 < (signedDigits 64 ival).length)
    (hlen : (signedDigits 64 ival).length < 2 ^ 32)
    (hzero : ival = 0 → (signedDigits 64 ival).length = 1) (hsign : sp.sign ival = sign)
    (hmain : sp.main (sp.precisionSet && decide (ival = 0) && decide (sp.precision = 0)) (signedDigits 64 ival) = main) :
    signedText sp ival = if sign.length + main.length < 2 ^ 32 then sp.layout sign main
      else sign ++ main ++ replicate sp.fieldWidth (ch ' ') := by
  have hs := sp.sign_length_le ival
  obtain ⟨nochars, hno⟩ : ∃ b, b =
    (sp.precisionSet && decide (ival = 0) && decide (sp.precision = 0)) := ⟨_, rfl⟩
  obtain ⟨buf, hb⟩ : ∃ l, l = signedDigits 64 ival := ⟨_, rfl⟩
  rw [← hno, ← hb] at hmain
  rw [← hb] at hbuf hlen hzero
  rw [hsign] at hs
  unfold signedText
  simp only [← hno, ← hb, hsign]
  have hyes : nochars = true → sp.precisionSet = true ∧ ival = 0 ∧ sp.precision = 0 := by
    intro h
    rw [h] at hno
    simpa [and_assoc] using hno.symm
  have hone : nochars = true → sp.precision = 0 ∧ buf.length = 1 := fun h =>
    ⟨(hyes h).2.2, hzero (hyes h).2.1⟩
  have hmainlen := Spec.main_length hone
  rw [Spec.main_eq hone]
  rw [hmain] at hmainlen ⊢
  unfold Spec.layout Spec.fill Spec.pad Lib.layout
  cases hminus : sp.flags.minus with
  | true =>
    simp only [Bool.not_true, Bool.false_and, Bool.false_eq_true, if_false, if_true,
      Bool.not_false, nil_append]
    split
    · next h => rw [rightText_short (by rw [length_append]; exact h), length_append]
    · next h =>
        have hfull : sign.length + main.length = 2 ^ 32 := by omega
        simp [rightText, hfull]
  | false =>
    simp only [Bool.not_false, Bool.true_and, Bool.and_true]
    rcases lt_or_ge (max buf.length sp.precision) sp.fieldWidth with hlt | hge
    · -- the field has room on the left, and is full then
      have hroom : sp.fieldWidth - max buf.length sp.precision - sign.length +
          (if nochars = true then 1 else 0) = sp.fieldWidth - (sign.length + main.length) := by
        rw [hmainlen]
        split
        · next h =>
            omega
        · omega
      have hshort : sign.length + main.length < 2 ^ 32 := by omega
      simp only [decide_eq_true hlt, Bool.true_and, hroom, if_pos hshort]
      have hfull := fun (a c : List UInt8) (x : UInt8)
          (hac : a.length + c.length = sign.length + main.length) =>
        @rightText_full sp.fieldWidth
          (a ++ (replicate (sp.fieldWidth - (sign.length + main.length)) x ++ c))
          (by simp only [length_append, length_replicate]; omega) hfw
      cases sp.flags.zero && !sp.precisionSet with
      | true =>
        simp only [if_true, Bool.not_true, Bool.false_eq_true, if_false, nil_append]
        rw [hfull _ _ _ rfl, append_assoc]
      | false =>
        simp only [Bool.false_eq_true, if_false, Bool.not_false, if_true, nil_append]
        have := hfull [] (sign ++ main) (ch ' ')
          (by simp)
        rw [nil_append] at this
        rw [this, append_assoc]
    · -- there is no room on the left
      simp only [decide_eq_false (not_lt.mpr hge), Bool.false_and, Bool.false_eq_true,
        if_false, Bool.not_false, if_true, nil_append]
      split
      · next hshort =>
          rw [rightText_short (by rw [length_append]; exact hshort), length_append]
          rcases lt_or_ge (sign.length + main.length) sp.fieldWidth with hlt | hle
          · -- no digit at all, and a width of one
            have hnochars : nochars = true := by
              by_contra hn
              rw [hmainlen, if_neg hn] at hlt
              omega
            have hnil : sign = [] ∧ main = [] := by
              obtain ⟨h0, h1⟩ := hone hnochars
              exact ⟨eq_nil_of_length_eq_zero (by omega), eq_nil_of_length_eq_zero (by omega)⟩
            rw [(hyes hnochars).1, hnil.1, hnil.2, Bool.not_true, Bool.and_false]
            simp
          · rw [show sp.fieldWidth - (sign.length + main.length) = 0 by omega]
            split <;> simp
      · next h =>
          have hfull : sign.length + main.length = 2 ^ 32 := by omega
          rw [rightText, length_append, hfull, Nat.mod_self, Nat.sub_zero]

/-- At least as many digits as the precision that the code has read. -/
def Spec.digits (sp : Spec) (b : Nat) (upcase : Bool) (v : Nat) : List UInt8 :=
  atLeast (ch '0') (if sp.precisionSet then sp.precision else 1) (numeral b upcase v)

theorem main_eq {b v : Nat} {upcase : Bool} {buf : List UInt8} (hb : 1 < b)
    (hset : sp.precisionSet = false → sp.precision = 0)
    (hrev : buf.reverse = if v = 0 then [ch '0'] else numeral b upcase v) :
    sp.main (sp.precisionSet && decide (v = 0) && decide (sp.precision = 0)) buf =
      sp.digits b upcase v := by
  have hlen : buf.length = (if v = 0 then [ch '0'] else numeral b upcase v).length := by
    rw [← hrev, length_reverse]
  unfold Spec.main Spec.digits atLeast
  rw [hrev, hlen]
  by_cases h0 : v = 0
  · rw [h0, numeral_zero]
    cases hs : sp.precisionSet with
    | false => simp [hset hs]
    | true =>
      rcases Nat.eq_zero_or_pos sp.precision with hp | hp
      · simp [hp]
      have hne : sp.precision ≠ 0 := by omega
      have hsucc : replicate (sp.precision - 1) (ch '0') ++ [ch '0'] =
          replicate sp.precision (ch '0') := by
        rw [← replicate_succ', Nat.sub_add_cancel hp]
      simp [hsucc]
  · have hpos := numeral_length_pos upcase hb h0
    simp only [h0, decide_false, Bool.and_false, Bool.false_and, Bool.false_eq_true, if_false]
    cases hs : sp.precisionSet with
    | false =>
      simp [hset hs, show 1 - (numeral b upcase v).length = 0 by omega]
    | true => rw [if_pos rfl]

/-! ## Reading a text back -/

def isHex (c : UInt8) : Bool :=
  isDigit c || (ch 'a' ≤ c && c ≤ ch 'f') || (ch 'A' ≤ c && c ≤ ch 'F')

def digitValue (c : UInt8) : Nat :=
  if isDigit c then c.toNat - 48 else if ch 'a' ≤ c then c.toNat - 87 else c.toNat - 55

theorem digitChar_hex (upcase : Bool) {d : Nat} (hd : d < 16) :
    isHex (digitChar upcase d) = true ∧ digitValue (digitChar upcase d) = d := by
  have h : ∀ (u : Bool) (e : Fin 16),
      isHex (digitChar u e.val) = true ∧ digitValue (digitChar u e.val) = e.val := by decide
  exact h upcase ⟨d, hd⟩

section readBack

variable {b v : Nat} {upcase : Bool}

theorem numeral_hex (hb : 1 < b) (hb16 : b ≤ 16) : ∀ c ∈ numeral b upcase v, isHex c = true := by
  intro c hc
  rw [numeral, mem_reverse, mem_map] at hc
  obtain ⟨d, hd, rfl⟩ := hc
  have := Nat.digits_lt_base hb hd
  exact (digitChar_hex upcase (by omega)).1

theorem readOn_replicate (b k : Nat) (ds : List Nat) :
    readOn b 0 (replicate k 0 ++ ds) = readOn b 0 ds := by
  induction k with
  | zero => rfl
  | succ k ih => simp [replicate_succ, ih]

def readBack (b : Nat) (l : List UInt8) : Nat := readOn b 0 ((l.filter isHex).map digitValue)

theorem readBack_numeral (hb : 1 < b) (hb16 : b ≤ 16) {l : List UInt8} {k : Nat}
    (h : l.filter isHex = replicate k (ch '0') ++ numeral b upcase v) :
    readBack b l = v := by
  have hvalue : (Nat.digits b v).map (digitValue ∘ digitChar upcase) = Nat.digits b v := by
    have hdigit : ∀ d ∈ Nat.digits b v, (digitValue ∘ digitChar upcase) d = id d := fun d hd => by
      have := Nat.digits_lt_base hb hd
      exact (digitChar_hex upcase (by omega)).2
    rw [map_congr_left hdigit, map_id]
  rw [readBack, h, map_append, map_replicate,
    show digitValue (ch '0') = 0 from by decide, readOn_replicate, readOn_zero, numeral,
    map_reverse, reverse_reverse, map_map, hvalue, Nat.ofDigits_digits]

theorem filter_isHex_layout (fill : Fill) (w : Nat) {i j : Nat} {pre main num : List UInt8}
    (hpre : pre.filter isHex = replicate i (ch '0'))
    (hmain : main.filter isHex = replicate j (ch '0') ++ num) :
    ∃ k, (layout (ch ' ') (ch '0') fill w pre main).filter isHex =
      replicate k (ch '0') ++ num ∧ (fill ≠ .inside → k = i + j) := by
  have hblank : isHex (ch ' ') = false := by decide
  have hzero : isHex (ch '0') = true := by decide
  rcases fill with _ | _ | _
  · refine ⟨i + j, ?_, fun _ => rfl⟩
    rw [filter_layout_blank hblank (by decide), hpre, hmain, ← append_assoc,
      replicate_append_replicate]
  · refine ⟨i + j, ?_, fun _ => rfl⟩
    rw [filter_layout_blank hblank (by decide), hpre, hmain, ← append_assoc,
      replicate_append_replicate]
  · refine ⟨i + (w - (pre.length + main.length)) + j, ?_, fun h => absurd rfl h⟩
    simp only [layout, filter_append, hpre, hmain, filter_replicate, hzero, if_true]
    simp [← append_assoc]

section

variable (hb : 1 < b) (hb16 : b ≤ 16)
include hb hb16

theorem atLeast_hex (p : Nat) : ∀ c ∈ atLeast (ch '0') p (numeral b upcase v), isHex c = true := by
  intro c hc
  rcases mem_append.mp hc with hc | hc
  · rw [eq_of_mem_replicate hc]
    decide
  · exact numeral_hex hb hb16 c hc

theorem filter_isHex_atLeast (p : Nat) :
    (atLeast (ch '0') p (numeral b upcase v)).filter isHex =
      replicate (p - (numeral b upcase v).length) (ch '0') ++ numeral b upcase v :=
  filter_eq_self.mpr (atLeast_hex hb hb16 p)

/-- Equal fields hold equal numbers, with as many zeros if none is filled in. -/
theorem layout_value {fill fill' : Fill} {w w' i i' j j' v' : Nat}
    {pre pre' main main' : List UInt8} (hpre : pre.filter isHex = replicate i (ch '0'))
    (hmain : main.filter isHex = replicate j (ch '0') ++ numeral b upcase v)
    (hpre' : pre'.filter isHex = replicate i' (ch '0'))
    (hmain' : main'.filter isHex = replicate j' (ch '0') ++ numeral b upcase v')
    (h : layout (ch ' ') (ch '0') fill w pre main = layout (ch ' ') (ch '0') fill' w' pre' main') :
    v = v' ∧ (fill ≠ .inside → fill' ≠ .inside → i + j = i' + j') := by
  obtain ⟨k, hk, hik⟩ := filter_isHex_layout fill w hpre hmain
  obtain ⟨k', hk', hik'⟩ := filter_isHex_layout fill' w' hpre' hmain'
  have hv : v = v' := by
    rw [← readBack_numeral hb hb16 hk, h, readBack_numeral hb hb16 hk']
  refine ⟨hv, fun hf hf' => ?_⟩
  have hlen := congrArg length (hk.symm.trans ((congrArg (filter isHex) h).trans hk'))
  rw [hv] at hlen
  simp only [length_append, length_replicate] at hlen
  have := hik hf
  have := hik' hf'
  omega

end

end readBack

end Dancy.Libc.Format
