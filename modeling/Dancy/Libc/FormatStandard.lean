import Dancy.Common.Utf8
import Dancy.Lib.Layout
import Dancy.Lib.Numeral
import Dancy.Libc.Format

/-!
# Formatted output by the C standard

A format is a list of characters and directives. A directive says how the
standard reads it, and what its conversion is: the sign, the prefix and the
digits of a number, at least as many as the precision asks for, in a field of
the given width. There is no text where the arguments do not suit, where the
standard leaves a length modifier without meaning, and where a wide character
has no encoding.
-/

namespace Dancy.Libc.Format

open Dancy.Lib Dancy.Common

/-! ## Directives -/

inductive FlagChar where
  | minus
  | plus
  | space
  | zero
  | alt
deriving DecidableEq

def FlagChar.char : FlagChar → UInt8
  | .minus => ch '-'
  | .plus => ch '+'
  | .space => ch ' '
  | .zero => ch '0'
  | .alt => ch '#'

inductive Amount where
  | digits (ds : List (Fin 10))
  | star

def Amount.chars : Amount → List UInt8
  | .digits ds => ds.map fun d : Fin 10 => UInt8.ofNat (48 + d.val)
  | .star => [ch '*']

def LengthModifier.chars : LengthModifier → List UInt8
  | .none => []
  | .hh => [ch 'h', ch 'h']
  | .h => [ch 'h']
  | .ell => [ch 'l']
  | .ellell => [ch 'l', ch 'l']
  | .j => [ch 'j']
  | .z => [ch 'z']
  | .tee => [ch 't']
  | .bell => [ch 'L']

inductive Conversion where
  | d
  | i
  | u
  | o
  | x
  | X
  | c
  | s
deriving DecidableEq

def Conversion.char : Conversion → UInt8
  | .d => ch 'd'
  | .i => ch 'i'
  | .u => ch 'u'
  | .o => ch 'o'
  | .x => ch 'x'
  | .X => ch 'X'
  | .c => ch 'c'
  | .s => ch 's'

/-- A directive; a width without digits is none. -/
structure Directive where
  flags : List FlagChar
  width : Amount
  precision : Option Amount
  length : LengthModifier
  conv : Conversion

def precisionChars : Option Amount → List UInt8
  | none => []
  | some p => ch '.' :: p.chars

/-- The characters after the `%`. -/
def Directive.chars (d : Directive) : List UInt8 :=
  d.flags.map FlagChar.char ++ (d.width.chars ++
    (precisionChars d.precision ++ (d.length.chars ++ [d.conv.char])))

inductive Piece where
  | char (c : UInt8)
  | percent
  | directive (d : Directive)

def Piece.chars : Piece → List UInt8
  | .char c => [c]
  | .percent => [ch '%', ch '%']
  | .directive d => ch '%' :: d.chars

def formatOf (pieces : List Piece) : List UInt8 := pieces.flatMap Piece.chars

/-- The value of an amount; an asterisk takes an `int`. -/
def Amount.read : Amount → List Arg → Option (Int × List Arg)
  | .digits ds, args => some ((readOn 10 0 (ds.map Fin.val) : Nat), args)
  | .star, args => vaSigned 32 args

structure Field where
  flags : Flags
  width : Nat
  precision : Option Nat

def Flags.of (fs : List FlagChar) : Flags where
  minus := fs.contains .minus
  plus := fs.contains .plus
  space := fs.contains .space
  zero := fs.contains .zero
  alt := fs.contains .alt

/-- A negative width is a flag and a width, and a negative precision is none. -/
def Directive.field (d : Directive) (args : List Arg) : Option (Field × List Arg) :=
  match d.width.read args with
  | none => none
  | some (w, args) =>
    let f := Flags.of d.flags
    let f := if w < 0 then { f with minus := true } else f
    match d.precision with
    | none => some (⟨f, w.natAbs, none⟩, args)
    | some a =>
      match a.read args with
      | none => none
      | some (p, args) => some (⟨f, w.natAbs, if p < 0 then none else some p.toNat⟩, args)

def Field.fill (f : Field) : Fill :=
  if f.flags.minus then .right
  else if f.flags.zero && f.precision.isNone then .inside
  else .left

def Field.textFill (f : Field) : Fill := if f.flags.minus then .right else .left

def Field.layout (f : Field) (fill : Fill) (pre main : List UInt8) : List UInt8 :=
  Lib.layout (ch ' ') (ch '0') fill f.width pre main

/-! ## Numbers -/

def numeral (b : Nat) (upcase : Bool) (v : Nat) : List UInt8 :=
  ((Nat.digits b v).map (digitChar upcase)).reverse

/-- At least as many digits as the precision says, and one if there is none. -/
def Field.digits (f : Field) (b : Nat) (upcase : Bool) (v : Nat) : List UInt8 :=
  atLeast (ch '0') (f.precision.getD 1) (numeral b upcase v)

/-- The bits of the type that the value is converted to. -/
def LengthModifier.valueBits (abi : Abi) : LengthModifier → Nat
  | .hh => 8
  | .h => 16
  | length => length.bits abi

def Field.sign (f : Field) (v : Int) : List UInt8 :=
  if v < 0 then [ch '-']
  else if f.flags.plus then [ch '+']
  else if f.flags.space then [ch ' ']
  else []

def Field.signed (f : Field) (v : Int) : List UInt8 :=
  f.layout f.fill (f.sign v) (f.digits 10 false v.natAbs)

def Field.unsigned (f : Field) (v : Nat) : List UInt8 :=
  f.layout f.fill [] (f.digits 10 false v)

/-- The precision is raised so far that the first digit is a zero. -/
def Field.octalDigits (f : Field) (v : Nat) : List UInt8 :=
  let ds := f.digits 8 false v
  if f.flags.alt && decide (ds.head? ≠ some (ch '0')) then ch '0' :: ds else ds

def Field.octal (f : Field) (v : Nat) : List UInt8 := f.layout f.fill [] (f.octalDigits v)

def Field.hexPrefix (f : Field) (upcase : Bool) (v : Nat) : List UInt8 :=
  if f.flags.alt && decide (v ≠ 0) then [ch '0', if upcase then ch 'X' else ch 'x'] else []

def Field.hex (f : Field) (upcase : Bool) (v : Nat) : List UInt8 :=
  f.layout f.fill (f.hexPrefix upcase v) (f.digits 16 upcase v)

/-- Wide characters as multibyte characters, as far as whole ones fit. -/
def wideText : (limit : Option Nat) → List Nat → Option (List UInt8)
  | _, [] => some []
  | some 0, _ => some []
  | limit, c :: chars =>
    if c = 0 then some []
    else if utf8Encode c = [] then none
    else if limit.any (· < (utf8Encode c).length) then some []
    else (wideText (limit.map (· - (utf8Encode c).length)) chars).map (utf8Encode c ++ ·)

def Abi.wchar (abi : Abi) (c : Nat) : Nat := c % 256 ^ abi.wcharBytes

/-- The characters of a string, up to its zero and as many as the precision
allows. -/
def Field.string (f : Field) (bytes : List UInt8) : List UInt8 :=
  match f.precision with
  | none => bytes.takeWhile (· ≠ 0)
  | some p => (bytes.takeWhile (· ≠ 0)).take p

/-- The characters of `c` and `s`. -/
def Directive.characters (abi : Abi) (d : Directive) (f : Field) : Arg → Option (List UInt8)
  | .word w =>
    if d.conv ≠ .c then none
    else if d.length = .ell then wideText none [abi.wchar w]
    else some [UInt8.ofNat w]
  | .str bytes => if d.conv = .s ∧ d.length ≠ .ell then some (f.string bytes) else none
  | .wide chars =>
    if d.conv = .s ∧ d.length = .ell then wideText f.precision (chars.map abi.wchar) else none

/-- The text of a directive, and the arguments that are left. -/
def Directive.standard (abi : Abi) (d : Directive) (args : List Arg) :
    Option (List UInt8 × List Arg) :=
  match d.field args with
  | none => none
  | some (f, args) =>
    match d.conv with
    | .d | .i =>
      (vaSigned (d.length.bits abi) args).map fun (v, args) =>
        (f.signed (v.bmod (2 ^ d.length.valueBits abi)), args)
    | .u =>
      (vaUnsigned (d.length.bits abi) args).map fun (v, args) =>
        (f.unsigned (v % 2 ^ d.length.valueBits abi), args)
    | .o =>
      (vaUnsigned (d.length.bits abi) args).map fun (v, args) =>
        (f.octal (v % 2 ^ d.length.valueBits abi), args)
    | .x =>
      (vaUnsigned (d.length.bits abi) args).map fun (v, args) =>
        (f.hex false (v % 2 ^ d.length.valueBits abi), args)
    | .X =>
      (vaUnsigned (d.length.bits abi) args).map fun (v, args) =>
        (f.hex true (v % 2 ^ d.length.valueBits abi), args)
    | .c | .s =>
      match args with
      | [] => none
      | arg :: args =>
        (d.characters abi f arg).map fun text => (f.layout f.textFill [] text, args)

/-- The first digit of a width is not `0`, which is a flag, and the length
modifier has a meaning. -/
def Directive.Valid (d : Directive) : Prop :=
  (match d.width with
    | .digits ds => ds.head? ≠ some 0
    | .star => True) ∧
  match d.conv with
  | .c | .s => d.length = .none ∨ d.length = .ell
  | _ => d.length ≠ .bell

def Piece.Valid : Piece → Prop
  | .char c => c ≠ 0 ∧ c ≠ ch '%'
  | .percent => True
  | .directive d => d.Valid

/-- The output of a format, and the arguments that are left. -/
def standard (abi : Abi) : List Piece → List Arg → Option (List UInt8 × List Arg)
  | [], args => some ([], args)
  | .char c :: pieces, args => (standard abi pieces args).map fun r => (c :: r.1, r.2)
  | .percent :: pieces, args => (standard abi pieces args).map fun r => (ch '%' :: r.1, r.2)
  | .directive d :: pieces, args =>
    match d.standard abi args with
    | none => none
    | some (text, args) => (standard abi pieces args).map fun r => (text ++ r.1, r.2)

end Dancy.Libc.Format
