import Dancy.Lib.Layout
import Dancy.Libc.Format

/-!
# The characters of a conversion

Every loop that stores stops at `n`, so what a conversion stores is the start
of a text that does not depend on `n`. The text of a number is a field laid out
around its sign and its digits.
-/

namespace Dancy.Libc.Format

open Dancy.Lib List

variable {n : Nat} {s : List UInt8}

theorem putAll_eq (cs : List UInt8) : ∀ {s : List UInt8}, s.length ≤ n →
    putAll n s cs = (s ++ cs).take n := by
  induction cs with
  | nil =>
    intro s hs
    rw [append_nil, take_of_length_le hs]
    rfl
  | cons c cs ih =>
    intro s hs
    change putAll n (put n s c) cs = _
    unfold put
    split
    · next hlt =>
        rw [ih (by rw [length_append, length_singleton]; omega), append_assoc]
        rfl
    · next hge =>
        have hn : s.length = n := by omega
        rw [ih hs, ← hn, take_left, take_left]

theorem take_append_take (a b : List UInt8) : (a.take n ++ b).take n = (a ++ b).take n := by
  rcases lt_or_ge n a.length with hlt | hge
  · have hcut : n ≤ (a.take n).length := by rw [length_take]; omega
    rw [take_append_of_le_length hcut, take_take, Nat.min_self,
      take_append_of_le_length (le_of_lt hlt)]
  · rw [take_of_length_le hge]

theorem putAll_take (t cs : List UInt8) :
    putAll n ((s ++ t).take n) cs = (s ++ (t ++ cs)).take n := by
  rw [putAll_eq cs (by rw [length_take]; omega), take_append_take, append_assoc]

theorem putAll_start (hs : s.length ≤ n) (cs : List UInt8) :
    putAll n s cs = (s ++ cs).take n := putAll_eq cs hs

theorem put_eq_putAll (s : List UInt8) (c : UInt8) : put n s c = putAll n s [c] := rfl

def rightText (fieldWidth : Nat) (text : List UInt8) : List UInt8 :=
  text ++ replicate (fieldWidth - text.length % 2 ^ 32) (ch ' ')

theorem putRight_take (fieldWidth : Nat) (t : List UInt8) :
    putRight n s.length fieldWidth ((s ++ t).take n) = (s ++ rightText fieldWidth t).take n := by
  unfold putRight rightText
  rcases lt_or_ge n (s ++ t).length with hlt | hge
  · -- nothing fits any more
    have hcut : ∀ cs : List UInt8, (s ++ (t ++ cs)).take n = (s ++ t).take n := fun cs => by
      rw [← append_assoc, take_append_of_le_length (by omega)]
    simp only [hcut]
    split
    · rw [putAll_take, hcut]
    · rfl
  · have hlen : ((s ++ t).take n).length - s.length = t.length := by
      rw [take_of_length_le hge, length_append]
      omega
    simp only [hlen]
    split
    · rw [putAll_take]
    · next hle =>
        rw [show fieldWidth - t.length % 2 ^ 32 = 0 by omega, replicate_zero, append_nil]

/-! ## The texts -/

/-- The sign of `d`, when there is one. -/
def Spec.sign (sp : Spec) (ival : Int) : List UInt8 :=
  if ival < 0 then [ch '-']
  else if sp.flags.plus then [ch '+']
  else if sp.flags.space then [ch ' ']
  else []

/-- The text of `storeDigits`. -/
def digitsText (sp : Spec) (nochars : Bool) (buf : List UInt8) : List UInt8 :=
  let max := max buf.length sp.precision
  let left := if !sp.flags.minus && decide (max < sp.fieldWidth) then
      replicate (sp.fieldWidth - max + (if nochars then 1 else 0)) sp.pad
    else []
  rightText sp.fieldWidth (left ++ (replicate (max - buf.length) (ch '0') ++
    (if nochars then [] else buf.reverse)))

theorem putAll_ite (c : Prop) [Decidable c] (s cs : List UInt8) :
    (if c then putAll n s cs else s) = putAll n s (if c then cs else []) := by
  split <;> rfl

theorem putAll_ite_not (c : Prop) [Decidable c] (s cs : List UInt8) :
    (if c then s else putAll n s cs) = putAll n s (if c then [] else cs) := by
  split <;> rfl

theorem max_ite (len precision : Nat) :
    (if len > precision then len else precision) = max len precision := by
  split <;> omega

theorem storeDigits_eq (hs : s.length ≤ n) (sp : Spec) (nochars : Bool) (buf : List UInt8) :
    storeDigits n s sp nochars buf = (s ++ digitsText sp nochars buf).take n := by
  unfold storeDigits digitsText
  simp only [putAll_ite, putAll_ite_not, max_ite]
  rw [putAll_start hs, putAll_take, putAll_take, putRight_take, append_assoc]

/-- The text of `storeSigned`. -/
def signedText (sp : Spec) (ival : Int) : List UInt8 :=
  let nochars := sp.precisionSet && decide (ival = 0) && decide (sp.precision = 0)
  let buf := signedDigits 64 ival
  let max := max buf.length sp.precision
  let left := !sp.flags.minus && decide (max < sp.fieldWidth)
  let early := left && (sp.flags.zero && !sp.precisionSet)
  let pads := if left then
      replicate (sp.fieldWidth - max - (sp.sign ival).length + (if nochars then 1 else 0)) sp.pad
    else []
  rightText sp.fieldWidth ((if early then sp.sign ival else []) ++ (pads ++
    ((if !early then sp.sign ival else []) ++ (replicate (max - buf.length) (ch '0') ++
      (if nochars then [] else buf.reverse)))))

theorem storeSigned_eq (hs : s.length ≤ n) (sp : Spec) (ival : Int) :
    storeSigned n s sp ival = (s ++ signedText sp ival).take n := by
  obtain ⟨signed, hsigned⟩ : ∃ b, b =
      (decide (ival < 0) || sp.flags.plus || (sp.flags.space && !sp.flags.plus)) := ⟨_, rfl⟩
  have hsign : ∀ (b : Bool) (s : List UInt8), (if (signed && b) = true then
        put n s (if decide (ival < 0) = true then ch '-'
          else if (sp.flags.space && !sp.flags.plus) = true then ch ' ' else ch '+')
      else s) = putAll n s (if b = true then sp.sign ival else []) := by
    intro b s
    rw [put_eq_putAll, putAll_ite, hsigned]
    unfold Spec.sign
    cases b <;> cases sp.flags.plus <;> cases sp.flags.space <;>
      by_cases hneg : ival < 0 <;> simp [hneg]
  have hlen : (if signed = true then 1 else 0) = (sp.sign ival).length := by
    rw [hsigned]
    unfold Spec.sign
    cases sp.flags.plus <;> cases sp.flags.space <;> by_cases hneg : ival < 0 <;> simp [hneg]
  -- whether the sign stands before the padding does not hang on its being there
  have hearly : ∀ l z p : Bool, (l && signed && z && p) = (signed && (l && (z && p))) := by
    cases signed <;> decide
  have hlate : ∀ b : Bool, (signed && !(signed && b)) = (signed && !b) := by
    cases signed <;> decide
  unfold storeSigned signedText
  simp only [← hsigned, hearly, hlate, hsign, hlen, putAll_ite, putAll_ite_not, max_ite]
  rw [putAll_start hs, putAll_take, putAll_take, putAll_take, putAll_take, putRight_take]
  simp

/-- The text of `storeText`. -/
def textText (sp : Spec) (text : List UInt8) : List UInt8 :=
  let left := if !sp.flags.minus && decide (text.length < sp.fieldWidth) then
      replicate (sp.fieldWidth - text.length) (ch ' ')
    else []
  rightText sp.fieldWidth (left ++ text)

theorem storeText_eq (hs : s.length ≤ n) (sp : Spec) (text : List UInt8) :
    storeText n s sp text = (s ++ textText sp text).take n := by
  unfold storeText textText
  simp only [putAll_ite]
  rw [putAll_start hs, putAll_take, putRight_take]

/-- The characters in `buf` for `x`, `X` and `p`. -/
def hexBuf (sp : Spec) (uval : Nat) : List UInt8 :=
  unsignedDigits 16 (sp.conv ≠ ch 'x') 62 uval ++
    if sp.flags.alt then [if sp.conv = ch 'x' then ch 'x' else ch 'X', ch '0'] else []

/-- The characters in `buf` for `o`. -/
def octalBuf (sp : Spec) (uval : Nat) : List UInt8 :=
  unsignedDigits 8 false 63 uval ++
    if sp.flags.alt && decide ((unsignedDigits 8 false 63 uval).getLastD 0 ≠ ch '0') then [ch '0']
    else []

theorem storeHex_eq (hs : s.length ≤ n) (sp : Spec) (uval : Nat) :
    storeHex n s sp uval = (s ++ digitsText sp (sp.nochars uval) (hexBuf sp uval)).take n := by
  rw [← storeDigits_eq hs, storeHex, hexBuf]
  cases sp.flags.alt <;> simp

theorem storeOctal_eq (hs : s.length ≤ n) (sp : Spec) (uval : Nat) :
    storeOctal n s sp uval =
      (s ++ digitsText sp (sp.nochars uval) (octalBuf sp uval)).take n := by
  rw [← storeDigits_eq hs, storeOctal, octalBuf]
  split <;> simp only [append_nil]

/-- The text of a conversion, and the arguments that are left. -/
def specText (abi : Abi) (sp : Spec) (args : List Arg) :
    Except Refused (List UInt8 × List Arg) :=
  let bits := sp.length.bits abi
  if sp.conv = ch 'd' ∨ sp.conv = ch 'i' then
    match vaSigned bits args with
    | none => .error .missing
    | some (ival, args) => .ok (signedText sp ival, args)
  else if sp.conv = ch 'u' then
    match vaUnsigned bits args with
    | none => .error .missing
    | some (uval, args) =>
      .ok (digitsText sp (sp.nochars uval) (unsignedDigits 10 false 64 uval), args)
  else if sp.conv = ch 'x' ∨ sp.conv = ch 'X' ∨ sp.conv = ch 'p' then
    let p := sp.conv = ch 'p'
    match vaUnsigned (if p then abi.sizeBits else bits) args with
    | none => .error .missing
    | some (uval, args) =>
      let sp := if p then { sp with precision := abi.sizeBits / 8 * 2, precisionSet := true }
        else sp
      .ok (digitsText sp (sp.nochars uval) (hexBuf sp uval), args)
  else if sp.conv = ch 'o' then
    match vaUnsigned bits args with
    | none => .error .missing
    | some (uval, args) => .ok (digitsText sp (sp.nochars uval) (octalBuf sp uval), args)
  else if sp.conv = ch 'c' then
    match vaUnsigned (if sp.length = .none then 32 else abi.sizeBits) args with
    | none => .error .missing
    | some (uval, args) => .ok (textText sp [UInt8.ofNat uval], args)
  else if sp.conv = ch 's' then
    match args with
    | .str bytes :: args => .ok (textText sp (sp.string bytes), args)
    | .wide chars :: args => .ok (textText sp (sp.string ((Arg.wide chars).bytes abi)), args)
    | _ => .error .missing
  else if sp.conv = ch 'n' then
    match args with
    | [] => .error .missing
    | _ :: args => .ok ([], args)
  else .error .unsupported

/-- A conversion stores its text as far as there is room, and takes its
arguments however much room there is. -/
theorem convert_eq (abi : Abi) (sp : Spec) {o : Output} (hs : o.s.length ≤ n) :
    match specText abi sp o.args with
    | .error e => convert abi n sp o = .error e
    | .ok (text, args) =>
      ∃ counts, convert abi n sp o = .ok ⟨(o.s ++ text).take n, args, counts⟩ := by
  obtain ⟨s, args, counts⟩ := o
  unfold specText convert
  by_cases hd : sp.conv = ch 'd' ∨ sp.conv = ch 'i'
  · simp only [if_pos hd]
    rcases vaSigned (sp.length.bits abi) args with _ | ⟨ival, args⟩
    · rfl
    · exact ⟨counts, by simp only [storeSigned_eq hs]⟩
  simp only [if_neg hd]
  by_cases hu : sp.conv = ch 'u'
  · simp only [if_pos hu]
    rcases vaUnsigned (sp.length.bits abi) args with _ | ⟨uval, args⟩
    · rfl
    · exact ⟨counts, by simp only [storeUnsigned, storeDigits_eq hs]⟩
  simp only [if_neg hu]
  by_cases hx : sp.conv = ch 'x' ∨ sp.conv = ch 'X' ∨ sp.conv = ch 'p'
  · simp only [if_pos hx]
    rcases vaUnsigned (if sp.conv = ch 'p' then abi.sizeBits else sp.length.bits abi) args
      with _ | ⟨uval, args⟩
    · rfl
    · exact ⟨counts, by simp only [storeHex_eq hs]⟩
  simp only [if_neg hx]
  by_cases ho : sp.conv = ch 'o'
  · simp only [if_pos ho]
    rcases vaUnsigned (sp.length.bits abi) args with _ | ⟨uval, args⟩
    · rfl
    · exact ⟨counts, by simp only [storeOctal_eq hs]⟩
  simp only [if_neg ho]
  by_cases hc : sp.conv = ch 'c'
  · simp only [if_pos hc]
    rcases vaUnsigned (if sp.length = .none then 32 else abi.sizeBits) args with _ | ⟨uval, args⟩
    · rfl
    · exact ⟨counts, by simp only [storeChar, storeText_eq hs]⟩
  simp only [if_neg hc]
  by_cases hstr : sp.conv = ch 's'
  · simp only [if_pos hstr]
    rcases args with _ | ⟨arg, args⟩
    · rfl
    · cases arg with
      | word w => rfl
      | str bytes | wide chars => exact ⟨counts, by simp only [storeText_eq hs]⟩
  simp only [if_neg hstr]
  by_cases hn : sp.conv = ch 'n'
  · simp only [if_pos hn]
    rcases args with _ | ⟨arg, args⟩
    · rfl
    · exact ⟨_, by simp only [append_nil, take_of_length_le hs]; rfl⟩
  · simp only [if_neg hn]

end Dancy.Libc.Format
