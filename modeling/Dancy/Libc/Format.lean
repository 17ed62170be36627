import Mathlib.Algebra.Order.Ring.Nat

/-!
# Formatted output (`snprintf.c`)

The format is read character by character; a list that ends stands for the
zero at the end of the string. What has been stored is the list `s`, whose
length is `out`, and nothing is stored once `out` is `n`. The arguments are a
list, too, and each `va_arg` takes the first one.
-/

namespace Dancy.Libc.Format

open List

/-! ## Types -/

/-- The sizes of `int` apart, which is 32 bits wide. -/
inductive Abi where
  | ilp32
  | llp64
  | lp64

/-- The bits of `long`. -/
def Abi.longBits : Abi → Nat
  | .ilp32 | .llp64 => 32
  | .lp64 => 64

/-- The bits of `size_t`, `ssize_t` and of pointers. -/
def Abi.sizeBits : Abi → Nat
  | .ilp32 => 32
  | .llp64 | .lp64 => 64

/-- The bytes of `wchar_t`. -/
def Abi.wcharBytes : Abi → Nat
  | .ilp32 | .llp64 => 2
  | .lp64 => 4

/-- An argument: an integer of any type by its bits, or a pointer to a string
of bytes or of wide characters, which ends at its first zero. -/
inductive Arg where
  | word (w : Nat)
  | str (bytes : List UInt8)
  | wide (chars : List Nat)
deriving DecidableEq

/-- `enum length_modifier`. -/
inductive LengthModifier where
  | none
  | hh
  | h
  | ell
  | ellell
  | j
  | z
  | tee
  | bell
deriving DecidableEq

/-- The bits of the integer that `va_arg` takes. -/
def LengthModifier.bits (abi : Abi) : LengthModifier → Nat
  | .none | .hh | .h => 32
  | .ell => abi.longBits
  | .ellell | .j => 64
  | .z | .tee | .bell => abi.sizeBits

/-- The bytes in memory behind a pointer, the lowest byte of a wide character
first. -/
def Arg.bytes (abi : Abi) : Arg → List UInt8
  | .word _ => []
  | .str bytes => bytes
  | .wide chars =>
    chars.flatMap fun c => (range abi.wcharBytes).map fun i => UInt8.ofNat (c / 256 ^ i)

/-- `va_arg` of a signed integer. -/
def vaSigned (bits : Nat) : List Arg → Option (Int × List Arg)
  | .word w :: args => some ((w : Int).bmod (2 ^ bits), args)
  | _ => none

/-- `va_arg` of an unsigned integer. -/
def vaUnsigned (bits : Nat) : List Arg → Option (Nat × List Arg)
  | .word w :: args => some (w % 2 ^ bits, args)
  | _ => none

/-! ## Reading a conversion specification -/

def ch (c : Char) : UInt8 := UInt8.ofNat c.toNat

structure Flags where
  (minus plus space zero alt : Bool)

def Flags.none : Flags := ⟨false, false, false, false, false⟩

structure Spec where
  flags : Flags
  (fieldWidth precision : Nat)
  precisionSet : Bool
  length : LengthModifier
  conv : UInt8

/-- Why reading stops: the format ends there, and `-1` is returned, or there is
no such argument. -/
inductive Halt where
  | stop (args : List Arg)
  | missing

/-- `if ((c = format[in++]) == '\0')`. -/
def nextChar : List UInt8 → Option (UInt8 × List UInt8)
  | [] => none
  | c :: fmt => if c = 0 then none else some (c, fmt)

def takeFlags (f : Flags) : List UInt8 → Option (Flags × UInt8 × List UInt8)
  | [] => none
  | c :: fmt =>
    if c = 0 then none
    else if c = ch '-' then takeFlags { f with minus := true } fmt
    else if c = ch '+' then takeFlags { f with plus := true } fmt
    else if c = ch ' ' then takeFlags { f with space := true } fmt
    else if c = ch '0' then takeFlags { f with zero := true } fmt
    else if c = ch '#' then takeFlags { f with alt := true } fmt
    else some (f, c, fmt)

/-- `c >= '0' && c <= '9'`. -/
def isDigit (c : UInt8) : Bool := ch '0' ≤ c && c ≤ ch '9'

/-- The loops over the digits of a width or a precision, which are `unsigned`. -/
def takeNumber (value : Nat) : List UInt8 → Option (Nat × UInt8 × List UInt8)
  | [] => none
  | c :: fmt =>
    if c = 0 then none
    else if isDigit c then takeNumber ((value * 10 + (c.toNat - 48)) % 2 ^ 32) fmt
    else some (value, c, fmt)

/-- What is read up to the width, with the next character in hand. -/
structure WidthRead where
  flags : Flags
  fieldWidth : Nat
  c : UInt8
  fmt : List UInt8
  args : List Arg

def parseWidth (f : Flags) (c : UInt8) (fmt : List UInt8) (args : List Arg) :
    Except Halt WidthRead :=
  if c = ch '*' then
    match vaSigned 32 args with
    | none => .error .missing
    | some (val, args) =>
      let f := if val < 0 then { f with minus := true } else f
      let fieldWidth :=
        if val < 0 then if val > -2 ^ 31 then (-val).toNat else 2 ^ 31 - 1 else val.toNat
      match nextChar fmt with
      | none => .error (.stop args)
      | some (c, fmt) => .ok ⟨f, fieldWidth, c, fmt, args⟩
  else
    match takeNumber 0 (c :: fmt) with
    | none => .error (.stop args)
    | some (fieldWidth, c, fmt) => .ok ⟨f, fieldWidth, c, fmt, args⟩

/-- What is read of the precision, with the next character in hand. -/
structure PrecisionRead where
  precision : Nat
  precisionSet : Bool
  c : UInt8
  fmt : List UInt8
  args : List Arg

def parsePrecision (c : UInt8) (fmt : List UInt8) (args : List Arg) :
    Except Halt PrecisionRead :=
  if c = ch '.' then
    match nextChar fmt with
    | none => .error (.stop args)
    | some (c, fmt) =>
      if c = ch '*' then
        match vaSigned 32 args with
        | none => .error .missing
        | some (val, args) =>
          match nextChar fmt with
          | none => .error (.stop args)
          | some (c, fmt) => .ok ⟨val.toNat, decide (0 ≤ val), c, fmt, args⟩
      else
        match takeNumber 0 (c :: fmt) with
        | none => .error (.stop args)
        | some (precision, c, fmt) => .ok ⟨precision, true, c, fmt, args⟩
  else .ok ⟨0, false, c, fmt, args⟩

/-- The length modifier, and the conversion specifier after it. -/
def parseLength (c : UInt8) (fmt : List UInt8) : LengthModifier × UInt8 × List UInt8 :=
  let (length, fmt) := if c = ch 'h' then
      if fmt.headD 0 = ch 'h' then (LengthModifier.hh, fmt.tail) else (.h, fmt)
    else if c = ch 'l' then
      if fmt.headD 0 = ch 'l' then (.ellell, fmt.tail) else (.ell, fmt)
    else if c = ch 'j' then (.j, fmt)
    else if c = ch 'z' then (.z, fmt)
    else if c = ch 't' then (.tee, fmt)
    else if c = ch 'L' then (.bell, fmt)
    else (.none, fmt)
  if length = .none then (length, c, fmt) else (length, fmt.headD 0, fmt.tail)

/-- What follows a `%`: another one, or a conversion specification. -/
inductive Parsed where
  | percent (fmt : List UInt8)
  | spec (sp : Spec) (fmt : List UInt8) (args : List Arg)

def parseSpec (fmt : List UInt8) (args : List Arg) : Except Halt Parsed :=
  match takeFlags Flags.none fmt with
  | none => .error (.stop args)
  | some (f, c, fmt) =>
    if c = ch '%' then .ok (.percent fmt)
    else
      match parseWidth f c fmt args with
      | .error e => .error e
      | .ok w =>
        match parsePrecision w.c w.fmt w.args with
        | .error e => .error e
        | .ok p =>
          let (length, conv, fmt) := parseLength p.c p.fmt
          .ok (.spec ⟨w.flags, w.fieldWidth, p.precision, p.precisionSet, length, conv⟩
            fmt p.args)

/-! ## Storing -/

/-- `if (out < n) s[out++] = c`. -/
def put (n : Nat) (s : List UInt8) (c : UInt8) : List UInt8 :=
  if s.length < n then s ++ [c] else s

/-- The loops that store as long as `out < n`. -/
def putAll (n : Nat) (s cs : List UInt8) : List UInt8 := cs.foldl (put n) s

/-- The end of every conversion: `len = (unsigned)(out - base)`, and spaces
up to the width. -/
def putRight (n base fieldWidth : Nat) (s : List UInt8) : List UInt8 :=
  let len := (s.length - base) % 2 ^ 32
  if len < fieldWidth then putAll n s (replicate (fieldWidth - len) (ch ' ')) else s

/-- `hex_normal` and `hex_upcase`. -/
def digitChar (upcase : Bool) (d : Nat) : UInt8 :=
  UInt8.ofNat (if d < 10 then 48 + d else if upcase then 55 + d else 87 + d)

/-- The loop that fills `buf` with digits, after its first round. -/
def unsignedLoop (base : Nat) (upcase : Bool) : (room uval : Nat) → List UInt8
  | 0, _ => []
  | room + 1, uval =>
    if uval / base = 0 ∧ uval % base = 0 then []
    else digitChar upcase (uval % base) :: unsignedLoop base upcase room (uval / base)

/-- The digits in `buf`, the lowest one first. -/
def unsignedDigits (base : Nat) (upcase : Bool) (room uval : Nat) : List UInt8 :=
  digitChar upcase (uval % base) :: unsignedLoop base upcase (room - 1) (uval / base)

/-- The same for a signed value, whose remainders may be negative. -/
def signedLoop : (room : Nat) → (ival : Int) → List UInt8
  | 0, _ => []
  | room + 1, ival =>
    if ival.tdiv 10 = 0 ∧ ival.tmod 10 = 0 then []
    else digitChar false (ival.tmod 10).natAbs :: signedLoop room (ival.tdiv 10)

def signedDigits (room : Nat) (ival : Int) : List UInt8 :=
  digitChar false (ival.tmod 10).natAbs :: signedLoop (room - 1) (ival.tdiv 10)

/-- `pad`, once a precision has cleared the flag. -/
def Spec.pad (sp : Spec) : UInt8 :=
  if sp.flags.zero && !sp.precisionSet && !sp.flags.minus then ch '0' else ch ' '

/-- The conversions `d` and `i`. -/
def storeSigned (n : Nat) (s : List UInt8) (sp : Spec) (ival : Int) : List UInt8 :=
  let base := s.length
  let negative := decide (ival < 0)
  let onlySpace := sp.flags.space && !sp.flags.plus
  let sign := if negative then ch '-' else if onlySpace then ch ' ' else ch '+'
  let signed := negative || sp.flags.plus || onlySpace
  let nochars := sp.precisionSet && decide (ival = 0) && decide (sp.precision = 0)
  let buf := signedDigits 64 ival
  let len := buf.length
  let max := if len > sp.precision then len else sp.precision
  let left := !sp.flags.minus && decide (max < sp.fieldWidth)
  let early := left && signed && sp.flags.zero && !sp.precisionSet
  let s := if early then put n s sign else s
  let pads := sp.fieldWidth - max - (if signed then 1 else 0) + (if nochars then 1 else 0)
  let s := if left then putAll n s (replicate pads sp.pad) else s
  let s := if signed && !early then put n s sign else s
  let s := putAll n s (replicate (max - len) (ch '0'))
  let s := if nochars then s else putAll n s buf.reverse
  putRight n base sp.fieldWidth s

/-- What the conversions `u`, `x`, `X`, `p` and `o` do with the digits. -/
def storeDigits (n : Nat) (s : List UInt8) (sp : Spec) (nochars : Bool) (buf : List UInt8) :
    List UInt8 :=
  let base := s.length
  let len := buf.length
  let max := if len > sp.precision then len else sp.precision
  let left := !sp.flags.minus && decide (max < sp.fieldWidth)
  let pads := sp.fieldWidth - max + (if nochars then 1 else 0)
  let s := if left then putAll n s (replicate pads sp.pad) else s
  let s := putAll n s (replicate (max - len) (ch '0'))
  let s := if nochars then s else putAll n s buf.reverse
  putRight n base sp.fieldWidth s

def Spec.nochars (sp : Spec) (uval : Nat) : Bool :=
  sp.precisionSet && decide (uval = 0) && decide (sp.precision = 0)

/-- The conversion `u`. -/
def storeUnsigned (n : Nat) (s : List UInt8) (sp : Spec) (uval : Nat) : List UInt8 :=
  storeDigits n s sp (sp.nochars uval) (unsignedDigits 10 false 64 uval)

/-- The conversions `x`, `X` and `p`. -/
def storeHex (n : Nat) (s : List UInt8) (sp : Spec) (uval : Nat) : List UInt8 :=
  let upcase := sp.conv ≠ ch 'x'
  let buf := unsignedDigits 16 upcase 62 uval
  let buf := if sp.flags.alt then buf ++ [if sp.conv = ch 'x' then ch 'x' else ch 'X', ch '0']
    else buf
  storeDigits n s sp (sp.nochars uval) buf

/-- The conversion `o`. -/
def storeOctal (n : Nat) (s : List UInt8) (sp : Spec) (uval : Nat) : List UInt8 :=
  let buf := unsignedDigits 8 false 63 uval
  let buf := if sp.flags.alt && decide (buf.getLastD 0 ≠ ch '0') then buf ++ [ch '0'] else buf
  storeDigits n s sp (sp.nochars uval) buf

/-- What the conversions `c` and `s` do with their characters. -/
def storeText (n : Nat) (s : List UInt8) (sp : Spec) (text : List UInt8) : List UInt8 :=
  let base := s.length
  let s := if !sp.flags.minus && decide (text.length < sp.fieldWidth) then
      putAll n s (replicate (sp.fieldWidth - text.length) (ch ' '))
    else s
  putRight n base sp.fieldWidth (putAll n s text)

/-- The conversion `c`: the low byte of an `int` or a `size_t`. -/
def storeChar (n : Nat) (s : List UInt8) (sp : Spec) (uval : Nat) : List UInt8 :=
  storeText n s sp [UInt8.ofNat uval]

/-- The characters of the conversion `s`; without a precision `max` is the
largest `unsigned`. -/
def Spec.string (sp : Spec) (bytes : List UInt8) : List UInt8 :=
  (bytes.takeWhile (· ≠ 0)).take (if sp.precisionSet then sp.precision else 2 ^ 32 - 1)

def intMax : Nat := 2 ^ 31 - 1

/-- What the conversion `n` stores through its pointer. -/
def countStored (length : LengthModifier) (out : Nat) : Nat :=
  let nOut := min out intMax
  match length with
  | .hh => min nOut 127
  | .h => min nOut (2 ^ 15 - 1)
  | _ => nOut

/-- The characters stored, the arguments left, and what was stored through
the pointers of `n`. -/
structure Output where
  s : List UInt8
  args : List Arg
  counts : List (Arg × LengthModifier × Nat)

/-- The conversion is not supported, or there is no such argument. -/
inductive Refused where
  | unsupported
  | missing

def convert (abi : Abi) (n : Nat) (sp : Spec) (o : Output) : Except Refused Output :=
  let bits := sp.length.bits abi
  if sp.conv = ch 'd' ∨ sp.conv = ch 'i' then
    match vaSigned bits o.args with
    | none => .error .missing
    | some (ival, args) => .ok { o with s := storeSigned n o.s sp ival, args := args }
  else if sp.conv = ch 'u' then
    match vaUnsigned bits o.args with
    | none => .error .missing
    | some (uval, args) => .ok { o with s := storeUnsigned n o.s sp uval, args := args }
  else if sp.conv = ch 'x' ∨ sp.conv = ch 'X' ∨ sp.conv = ch 'p' then
    let p := sp.conv = ch 'p'
    match vaUnsigned (if p then abi.sizeBits else bits) o.args with
    | none => .error .missing
    | some (uval, args) =>
      let sp := if p then { sp with precision := abi.sizeBits / 8 * 2, precisionSet := true }
        else sp
      .ok { o with s := storeHex n o.s sp uval, args := args }
  else if sp.conv = ch 'o' then
    match vaUnsigned bits o.args with
    | none => .error .missing
    | some (uval, args) => .ok { o with s := storeOctal n o.s sp uval, args := args }
  else if sp.conv = ch 'c' then
    match vaUnsigned (if sp.length = .none then 32 else abi.sizeBits) o.args with
    | none => .error .missing
    | some (uval, args) => .ok { o with s := storeChar n o.s sp uval, args := args }
  else if sp.conv = ch 's' then
    match o.args with
    | .str bytes :: args => .ok { o with s := storeText n o.s sp (sp.string bytes), args := args }
    | .wide chars :: args =>
      .ok { o with
        s := storeText n o.s sp (sp.string ((Arg.wide chars).bytes abi))
        args := args }
    | _ => .error .missing
  else if sp.conv = ch 'n' then
    match o.args with
    | [] => .error .missing
    | arg :: args =>
      .ok { o with
        args := args
        counts := o.counts ++ [(arg, sp.length, countStored sp.length o.s.length)] }
  else .error .unsupported

/-- How a call ends: it returns, the process is killed, or it has taken an
argument that is not there. -/
inductive Printed where
  | returned (ret : Int) (o : Output)
  | killed
  | missing

/-- The end of the function, `n` being less one. -/
def finish (n : Nat) (o : Output) : Printed :=
  .returned (if o.s.length ≥ n then -1 else (min o.s.length intMax : Nat))
    { o with s := o.s ++ [0] }

/-- The loop `while (out < n)`; every round reads the format on. -/
def formatLoop (abi : Abi) (n : Nat) : (fuel : Nat) → (fmt : List UInt8) → Output → Printed
  | 0, _, _ => .missing
  | fuel + 1, fmt, o =>
    if o.s.length < n then
      match fmt with
      | [] => finish n o
      | c :: fmt =>
        if c = 0 then finish n o
        else if c ≠ ch '%' then formatLoop abi n fuel fmt { o with s := o.s ++ [c] }
        else
          match parseSpec fmt o.args with
          | .error .missing => .missing
          | .error (.stop args) => .returned (-1) { o with s := o.s ++ [0], args := args }
          | .ok (.percent fmt) => formatLoop abi n fuel fmt { o with s := o.s ++ [ch '%'] }
          | .ok (.spec sp fmt args) =>
            match convert abi n sp { o with args := args } with
            | .error .missing => .missing
            | .error .unsupported => .killed
            | .ok o => formatLoop abi n fuel fmt o
    else finish n o

def myVsnprintf (abi : Abi) (n : Nat) (fmt : List UInt8) (args : List Arg) : Printed :=
  if n < 1 then .returned (-1) ⟨[], args, []⟩
  else formatLoop abi (n - 1) (fmt.length + 1) fmt ⟨[], args, []⟩

end Dancy.Libc.Format
