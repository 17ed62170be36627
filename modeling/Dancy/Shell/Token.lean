import Dancy.Lib.Prog
import Dancy.Shell.Vars

/-!
# The tokens of the shell (`dsh/token.c`)

A line is the list of its characters, and a position in it the rest of the
line from there on, so that the character after the last one is NUL. The
buffers are the strings in them; a character that is written outside its
buffer, or a loop that would not end, leaves a mark in `faults`.
-/

namespace Dancy.Shell

open Dancy.Lib List Option

inductive Fault where
  | overflow
  | endless

/-- What the tokens depend on and change. `mem` tells if the calls of
`malloc` to come succeed; no function reads `faults`. -/
structure Sh where
  vars : DshVars
  (dshInteractive dshOperateState : Bool)
  (dshExitCode pid : Int)
  mem : Nat → Bool
  stderr : List CStr
  faults : List Fault

/-- A function of the shell that may fail with a message. -/
abbrev Dsh (α : Type) := Prog CStr Sh α

def nul : Char := Char.ofNat 0
def quotation : Char := Char.ofNat 34
def apostrophe : Char := Char.ofNat 39
def backslash : Char := Char.ofNat 92
def newline : Char := Char.ofNat 10

/-! ## Errors and buffers -/

/-- `fprintf` to `stderr`, and the end of a shell that is not interactive. -/
def Sh.print (sh : Sh) (message : CStr) : Sh :=
  { sh with
    stderr := sh.stderr ++ [message]
    dshOperateState := if sh.dshInteractive then sh.dshOperateState else false }

def Sh.fault (sh : Sh) (f : Fault) : Sh := { sh with faults := f :: sh.faults }

def errorText (message : String) : CStr :=
  "dsh: error: ".toList ++ message.toList ++ [newline]

/-- `token_error`, where its result is returned. -/
def tokenError {α : Type} (message : String) : Dsh α := fun sh =>
  (.error message.toList, sh.print (errorText message))

/-- `if (c) return token_error(message);` -/
def errorIf (c : Prop) [Decidable c] (message : String) : Dsh PUnit :=
  if c then tokenError message else pure ⟨⟩

/-- The buffer of a size when `n` characters of it are used. -/
def used (size n : Nat) : Dsh PUnit :=
  Prog.act fun sh => (⟨⟩, if n ≤ size then sh else sh.fault .overflow)

/-- `*b++ = c;` -/
def store (size : Nat) (b : CStr) (c : Char) : Dsh CStr := do
  used size (b.length + 1)
  pure (b ++ [c])

/-- `*b++ = c, *b = '\0';` -/
def push (size : Nat) (b : CStr) (c : Char) : Dsh CStr := do
  used size (b.length + 2)
  pure (b ++ [c])

/-- A call of `malloc`. -/
def takeMem : Dsh Bool := Prog.act fun sh => (sh.mem 0, { sh with mem := fun i => sh.mem (i + 1) })

def validVariableChar (c : Char) (digit : Bool) : Bool :=
  c = '_' || (digit && isDigit c) || isLetter c

/-- Whether the variable has the value that the word asks for. -/
def isSet (colon : Bool) : Option CStr → Bool
  | none => false
  | some v => !(colon && v.isEmpty)

/-- A message of `expand_substitute`. -/
def unsetText (parameter w : CStr) (colon : Bool) : CStr :=
  let text := if w ≠ [] then w
    else if colon then "parameter null or not set".toList
    else "parameter not set".toList
  "dsh: ".toList ++ parameter ++ ": ".toList ++ text ++ [newline]

/-- `dsh_var_write`, and what `dsh_var_read` finds then. -/
def assignWord (parameter w : CStr) : Dsh (Option CStr) := fun sh =>
  let mem := sh.mem 0
  let sh := { sh with mem := fun i => sh.mem (i + 1) }
  match dshVarWrite mem sh.vars parameter (some w) 0 with
  | (vars, none) => (.ok none, ({ sh with vars := vars }).print (errorText "assign word"))
  | (vars, some _) => (.ok (dshVarRead vars parameter), { sh with vars := vars })

def reportUnset (parameter w : CStr) (colon : Bool) : Dsh (Option CStr) := fun sh =>
  (.ok none, { sh.print (unsetText parameter w colon) with dshExitCode := 127 })

/-- The word of `expand_substitute` from its operator on; `colon` is set
when a colon stands before the operator. -/
def substituteWord (parameter : CStr) (v : Option CStr) (colon : Bool) (op : Char) (w : CStr) :
    Dsh (Option CStr) :=
  if op = '-' then pure (if isSet colon v then v else some w)
  else if op = '=' then if isSet colon v then pure v else assignWord parameter w
  else if op = '?' then if isSet colon v then pure v else reportUnset parameter w colon
  else if op = '+' then pure (if isSet colon v then some w else some [])
  else pure none

def expandSubstitute (parameter word : CStr) : Dsh (Option CStr) := fun sh =>
  if parameter = [] then (.ok none, sh)
  else
    let v := dshVarRead sh.vars parameter
    match word with
    | [] => (.ok (some (v.getD [])), sh)
    | ':' :: op :: w => substituteWord parameter v true op w sh
    | op :: w => substituteWord parameter v false op w sh

/-! ## Expansion -/

/-- `sizeof(buffer)` and `sizeof(word)` of `expand`. -/
def expandSize : Nat := 256

/-- `snprintf` of a number to `buffer`. -/
def printNumber (n : Int) : Dsh CStr := do
  let r := (toString n).toList
  errorIf (r.length = 0 ∨ expandSize ≤ r.length) "unexpected behavior"
  used expandSize (r.length + 1)
  pure r

/-- `memcpy` of a value to `buffer`, with the check before it. -/
def copyValue (p : CStr) : Dsh CStr := do
  errorIf (expandSize ≤ p.length + 1) "variable value"
  used expandSize p.length
  pure p

/-- The loop over the name of `$NAME`; the first character is valid. -/
def readName : CStr → CStr → Dsh CStr
  | [], buffer => pure buffer
  | c :: rest, buffer => do
      let buffer ← push expandSize buffer c
      errorIf (expandSize ≤ buffer.length + 1) "variable name"
      if validVariableChar (rest.headD nul) true then readName rest buffer else pure buffer

/-- `$NAME`: the number of characters, and the value. -/
def expandName (rest : CStr) : Dsh (Nat × CStr) := do
  let name ← readName rest []
  let vars ← Prog.act fun sh => (sh.vars, sh)
  let value ← copyValue ((dshVarRead vars name).getD [])
  pure (name.length, value)

/-- What the loop over `${...}` has read: `word` is there from the first
character on that is not a part of a name, `count` is set by a `#`. -/
structure Brace where
  addI : Nat
  count : Option Bool
  buffer : CStr
  word : Option CStr

/-- `word[word_i++] = c` or `buffer[buffer_i++] = c`. -/
def Brace.write (s : Brace) (c : Char) : Dsh Brace :=
  match if validVariableChar c (1 < s.addI) then s.word else some (s.word.getD []) with
  | none => do
      let buffer ← push expandSize s.buffer c
      pure { s with buffer := buffer }
  | some word => do
      let word ← push expandSize word c
      pure { s with word := some word }

/-- The loop over `${...}`, after the brace. When the line ends in it,
everything is dropped. -/
def readBrace : CStr → Brace → Dsh Brace
  | [], _ => pure ⟨0, some false, [], some []⟩
  | c :: rest, s =>
    let s := { s with addI := s.addI + 1 }
    if s.count = none ∧ c = '#' then readBrace rest { s with count := some true }
    else
      let s := { s with count := some (s.count.getD false) }
      if c = '}' then pure { s with addI := s.addI + 1 }
      else do
        let s ← s.write c
        errorIf (expandSize ≤ s.buffer.length + 1) "variable name"
        errorIf (s.word ≠ none ∧ expandSize ≤ (s.word.getD []).length + 1) "substitute word"
        readBrace rest s

/-- The value of `${...}`, or its length. -/
def braceValue (s : Brace) (p : Option CStr) : Dsh CStr :=
  match p with
  | none => pure (if s.count = some true then ['0'] else [])
  | some p =>
    if s.buffer = [] then pure (if s.count = some true then ['0'] else [])
    else if s.count = some true then printNumber p.length
    else copyValue p

/-- `${...}`: the number of characters, and what stands for it. -/
def expandBrace (rest : CStr) : Dsh (Nat × CStr) := do
  let s ← readBrace rest ⟨0, none, [], none⟩
  let p ← expandSubstitute s.buffer (s.word.getD [])
  let value ← braceValue s p
  pure (s.addI, value)

/-- A parameter that is a number: one character. -/
def expandNumber (g : Sh → Int) : Dsh (Nat × CStr) := do
  let n ← Prog.act fun sh => (g sh, sh)
  let r ← printNumber n
  pure (1, r)

/-- What stands after a `$`: the number of characters, and what stands for it. -/
def expandValue (rest : CStr) : Dsh (Nat × CStr) :=
  let next := rest.headD nul
  if next = '?' then expandNumber Sh.dshExitCode
  else if next = '$' then expandNumber Sh.pid
  else if validVariableChar next false then expandName rest
  else if next = '{' then expandBrace rest.tail
  else pure (0, [])

/-- `sizeof(_b)` of `dsh_token_read`; `e` is the last character of it. -/
def tokenSize : Nat := 512
def tokenEnd : Nat := tokenSize - 1

def intMax : Nat := 0x7FFFFFFF

/-- `expand`, after a `$`: its result, the rest of the line, and `_b`. -/
def expand (rest b : CStr) : Dsh (Nat × CStr × CStr) := do
  let (addI, buffer) ← expandValue rest
  errorIf (buffer ≠ [] ∧ (tokenEnd ≤ b.length ∨ tokenEnd - b.length < buffer.length))
    "expand buffer overflow"
  used tokenSize (b.length + buffer.length + 1)
  pure (if 0 < addI ∧ buffer = [] then intMax else addI, rest.drop addI, b ++ buffer)

/-! ## Tokens -/

inductive TokenType where
  | null
  | arg
  | glob
  | op
  | var
  | max

/-- `struct token`; `rest` is `_input` from `_i` on. -/
structure Token where
  data : CStr
  type : TokenType
  value : Int
  rest : CStr

def dshTokenInit (input : CStr) : Token := ⟨[], .null, 0, input⟩

inductive QuoteMode where
  | none
  | double
  | single
deriving DecidableEq

/-- The variables of the loop of `dsh_token_read`. -/
structure Scan where
  (rest b : CStr)
  quoteMode : QuoteMode
  globMode : Nat
  emptyAllowed : Bool
  type : TokenType

inductive Turn where
  | next (s : Scan)
  | stop (s : Scan)
  | op (t : Token)

def isGlob (c : Char) : Bool := c = '*' || c = '?' || c = '['

def isBlank (c : Char) : Bool := c = ' ' || (9 ≤ c.toNat && c.toNat ≤ 13)
def isOperator (c : Char) : Bool :=
  c = '&' || c = ';' || c = '<' || c = '>' || c = '|'

/-- `*b++ = c, *b = '\0';` -/
def Scan.put (s : Scan) (c : Char) : Dsh Turn := do
  let b ← push tokenSize s.b c
  pure (.next { s with b := b })

/-- The same with a backslash before it, where a pattern needs it. -/
def Scan.putQuoted (s : Scan) (c : Char) : Dsh Turn :=
  if s.globMode = 1 ∧ isGlob c then do
    let b ← store tokenSize s.b backslash
    { s with b := b }.put c
  else s.put c

/-- After a backslash between double quotes: the character that is
written, and the rest of the line. A newline is left out. -/
def escaped (rest : CStr) : Option (Char × CStr) :=
  match rest with
  | c :: rest' =>
    if c = newline then none
    else if c = quotation ∨ c = '$' ∨ c = backslash ∨ c = Char.ofNat 96 then some (c, rest')
    else some (backslash, rest)
  | [] => some (backslash, [])

/-- Between double quotes, a character that is not expanded. -/
def Scan.doubleRest (s : Scan) (c : Char) : Dsh Turn :=
  if c = backslash then
    match escaped s.rest with
    | none => pure (.next { s with rest := s.rest.tail })
    | some (c, rest) => { s with rest := rest }.putQuoted c
  else s.putQuoted c

def Scan.double (s : Scan) (c : Char) : Dsh Turn :=
  if c = quotation then pure (.next { s with quoteMode := .none })
  else if c = '$' then do
    let (r, rest, b) ← expand s.rest s.b
    let s := { s with rest := rest, b := b }
    if 0 < r then pure (.next s) else s.doubleRest c
  else s.doubleRest c

def Scan.single (s : Scan) (c : Char) : Dsh Turn :=
  if c = apostrophe then pure (.next { s with quoteMode := .none }) else s.putQuoted c

/-- The number in front of `<` or `>`: the characters from the start of the
token up to the operator. -/
def fdValue : Int → CStr → Int
  | value, [] => value
  | value, c :: rest =>
    if !isDigit c then -1
    else
      let value := if value < 0 then 0 else value
      fdValue (min (value * 10 + ((c.toNat : Int) - 48)) 0xFFFF) rest

/-- The operator that begins with `c`, and the rest of the line. -/
def operatorText (c : Char) (rest : CStr) : CStr × CStr :=
  let next := rest.headD nul
  if c = '&' then
    if next = '&' then (['&', '&'], rest.tail)
    else if next = '>' then
      if rest.tail.headD nul = '>' then (['&', '>', '>'], rest.tail.tail)
      else (['&', '>'], rest.tail)
    else ([c], rest)
  else if c = '<' then
    if next = '<' then (['<', '<'], rest.tail)
    else if next = '&' then (['<', '&'], rest.tail)
    else if next = '>' then (['<', '>'], rest.tail)
    else ([c], rest)
  else if c = '>' then
    if next = '>' then (['>', '>'], rest.tail)
    else if next = '&' then (['>', '&'], rest.tail)
    else ([c], rest)
  else if c = '|' then
    if next = '|' then (['|', '|'], rest.tail) else ([c], rest)
  else ([c], rest)

/-- A turn at an operator; `start` is the line from the start of the token. -/
def Scan.operator (s : Scan) (start : CStr) (c : Char) : Turn :=
  let before := start.take (start.length - (s.rest.length + 1))
  let value := if c = '<' ∨ c = '>' then fdValue (-1) before else -1
  if s.b ≠ [] ∧ value < 0 then .stop { s with rest := c :: s.rest }
  else
    let (data, rest) := operatorText c s.rest
    .op ⟨data, .op, if c = '<' ∨ c = '>' then value else 0, rest⟩

/-- A turn outside quotes, at a character that is not expanded. -/
def Scan.plainRest (s : Scan) (start : CStr) (c : Char) : Dsh Turn :=
  if c = backslash then
    match s.rest with
    | [] => pure (.stop s)
    | c :: rest =>
      let s := { s with rest := rest }
      if c = newline then pure (.next s) else s.putQuoted c
  else if c = quotation then
    pure (.next { s with quoteMode := .double, emptyAllowed := true })
  else if c = apostrophe then
    pure (.next { s with quoteMode := .single, emptyAllowed := true })
  else if s.globMode = 0 ∧ isGlob c then
    pure (.next { s with emptyAllowed := false, globMode := 1, rest := start, b := [] })
  else if s.globMode = 1 ∧ c = '[' then
    let s := { s with globMode := 2 }
    match s.rest with
    | ']' :: rest => do
        let b ← store tokenSize s.b c
        { s with rest := rest, b := b }.put ']'
    | _ => s.put c
  else if s.globMode = 2 ∧ c = ']' then { s with globMode := 1 }.put c
  else if isBlank c then pure (.stop s)
  else if isOperator c then pure (s.operator start c)
  else s.put c

def Scan.plain (s : Scan) (start : CStr) (c : Char) : Dsh Turn :=
  if c = '$' then do
    let (r, rest, b) ← expand s.rest s.b
    let s := { s with rest := rest, b := b, type := if r = intMax then .max else s.type }
    if 0 < r then pure (.next s) else s.plainRest start c
  else s.plainRest start c

/-- A turn of the loop at the character `c`; `s.rest` comes after it. -/
def Scan.turn (s : Scan) (start : CStr) (c : Char) : Dsh Turn := do
  errorIf (tokenEnd ≤ s.b.length) "buffer overflow"
  errorIf (s.globMode ≠ 0 ∧ tokenEnd ≤ s.b.length + 1) "buffer overflow"
  match s.quoteMode with
  | .double => s.double c
  | .single => s.single c
  | .none => s.plain start c

def scanLoop (start : CStr) : Nat → Scan → Dsh Turn
  | 0, s => Prog.act fun sh => (.stop s, sh.fault .endless)
  | n + 1, s =>
    match s.rest with
    | [] => pure (.stop s)
    | c :: rest => do
        match ← { s with rest := rest }.turn start c with
        | .next s => scanLoop start n s
        | t => pure t

def tokenDataSize : Nat := 8

/-- `strcpy` to `_data`, or `strdup`. -/
def copyData (b : CStr) : Dsh PUnit :=
  if b.length < tokenDataSize then used tokenDataSize (b.length + 1)
  else do
    let mem ← takeMem
    errorIf (mem = false) "out of memory"

/-- The type of a token that is not an operator. -/
def argType (varAllowed : Bool) (s : Scan) : TokenType :=
  if varAllowed && validVariableChar (s.b.headD nul) false && s.b.contains '=' then .var
  else if s.globMode ≠ 0 then .glob
  else .arg

/-- The end of `dsh_token_read`. -/
def finishToken (varAllowed : Bool) (s : Scan) : Dsh Token := do
  errorIf (s.quoteMode = .double) "matching double-quote not found"
  errorIf (s.quoteMode = .single) "matching single-quote not found"
  if s.emptyAllowed = false ∧ s.b = [] then pure ⟨[], s.type, 0, s.rest⟩
  else do
    copyData s.b
    pure ⟨s.b, argType varAllowed s, 0, s.rest⟩

def dshTokenRead (t : Token) : Dsh Token := do
  let start := t.rest.dropWhile fun c => c = ' ' || c.toNat = 9
  let first := start.headD nul
  match ← scanLoop start (2 * start.length + 2) ⟨start, [], .none, 0, false, .null⟩ with
  | .op t => pure t
  | .stop s | .next s => finishToken (first ≠ quotation && first ≠ apostrophe) s

variable {α β : Type} {Q : α → Prop} {R : β → Prop} {m : Dsh α} {f : α → Dsh β}

/-! ## Functions that leave no mark -/

/-- The function leaves no fault, and its value, if there is one, is good. -/
def Safe (m : Dsh α) (Q : α → Prop) : Prop :=
  ∀ fs : List Fault, Triple (fun sh => sh.faults = fs) m (fun a sh => Q a ∧ sh.faults = fs)
    fun sh => sh.faults = fs

theorem Safe.pure {a : α} (h : Q a) : Safe (Pure.pure a : Dsh α) Q :=
  fun _ => Triple.pure fun _ hs => ⟨h, hs⟩

theorem Safe.bind (hm : Safe m Q) (hf : ∀ a, Q a → Safe (f a) R) : Safe (m >>= f) R := by
  intro fs
  apply Triple.bind (hm fs)
  intro a
  exact Triple.lift fun ha => hf a ha fs

theorem Safe.weaken {Q' : α → Prop} (h : Safe m Q) (hq : ∀ a, Q a → Q' a) : Safe m Q' :=
  fun fs => (h fs).weaken (fun _ => id) fun a _ hs => ⟨hq a hs.1, hs.2⟩

theorem Safe.step {m : Dsh α} {v : Sh → Except CStr α} {g : Sh → Sh} (hm : ∀ sh, m sh = (v sh, g sh))
    (hg : ∀ sh, (g sh).faults = sh.faults) (hv : ∀ sh a, v sh = .ok a → Q a) : Safe m Q := by
  intro fs sh hs
  rw [hm]
  exact ⟨fun a ha => ⟨hv sh a ha, (hg sh).trans hs⟩, fun _ _ => (hg sh).trans hs⟩

theorem safe_errorIf {c : Prop} [Decidable c] {message : String} :
    Safe (errorIf c message) fun _ => ¬ c := by
  unfold errorIf
  by_cases hc : c
  · rw [if_pos hc]
    exact Safe.step (g := fun sh => sh.print _)
      (fun _ => rfl) (fun _ => rfl) fun _ _ h => by cases h
  · rw [if_neg hc]
    exact Safe.pure hc

theorem safe_used {size n : Nat} (h : n ≤ size) : Safe (used size n) fun _ => True := by
  apply Safe.step (v := fun _ => .ok ⟨⟩) (g := id) _ (fun _ => rfl) fun _ _ _ => trivial
  intro sh
  unfold used Prog.act
  simp only [if_pos h]
  rfl

theorem safe_store {size : Nat} {b : CStr} {c : Char} (h : b.length + 1 ≤ size) :
    Safe (store size b c) fun b' => b' = b ++ [c] :=
  (safe_used h).bind fun _ _ => Safe.pure rfl

theorem safe_push {size : Nat} {b : CStr} {c : Char} (h : b.length + 2 ≤ size) :
    Safe (push size b c) fun b' => b' = b ++ [c] :=
  (safe_used h).bind fun _ _ => Safe.pure rfl

theorem safe_read (g : Sh → α) : Safe (Prog.act fun sh => (g sh, sh)) fun _ => True :=
  Safe.step (g := id) (fun _ => rfl) (fun _ => rfl) fun _ _ _ => trivial

theorem safe_takeMem : Safe takeMem fun _ => True :=
  Safe.step (g := fun sh => { sh with mem := fun i => sh.mem (i + 1) })
    (fun _ => rfl) (fun _ => rfl) fun _ _ _ => trivial

/-! ## Expansion -/

theorem safe_assignWord (parameter w : CStr) : Safe (assignWord parameter w) fun _ => True := by
  intro fs sh hs
  unfold assignWord
  simp only
  split
  all_goals exact ⟨fun _ _ => ⟨trivial, hs⟩, nofun⟩

theorem safe_reportUnset (parameter w : CStr) (colon : Bool) :
    Safe (reportUnset parameter w colon) fun _ => True :=
  fun _ _ hs => ⟨fun _ _ => ⟨trivial, hs⟩, nofun⟩

theorem safe_substituteWord (parameter : CStr) (v : Option CStr) (colon : Bool) (op : Char)
    (w : CStr) : Safe (substituteWord parameter v colon op w) fun _ => True := by
  unfold substituteWord
  split
  · exact Safe.pure trivial
  split
  · split
    · exact Safe.pure trivial
    · exact safe_assignWord parameter w
  split
  · split
    · exact Safe.pure trivial
    · exact safe_reportUnset parameter w colon
  · split
    · exact Safe.pure trivial
    · exact Safe.pure trivial

theorem safe_expandSubstitute (parameter word : CStr) :
    Safe (expandSubstitute parameter word) fun _ => True := by
  intro fs sh hs
  unfold expandSubstitute
  split
  · exact ⟨fun _ _ => ⟨trivial, hs⟩, nofun⟩
  · split
    · exact ⟨fun _ _ => ⟨trivial, hs⟩, nofun⟩
    all_goals exact safe_substituteWord _ _ _ _ _ fs sh hs

theorem safe_printNumber (n : Int) : Safe (printNumber n) fun _ => True := by
  apply safe_errorIf.bind
  intro _ hlen
  rw [not_or, Nat.not_le] at hlen
  exact (safe_used hlen.2).bind fun _ _ => Safe.pure trivial

theorem safe_copyValue (p : CStr) : Safe (copyValue p) fun _ => True := by
  apply safe_errorIf.bind
  intro _ hlen
  exact (safe_used (by omega)).bind fun _ _ => Safe.pure trivial

theorem safe_readName (rest buffer : CStr) (h : buffer.length + 2 ≤ expandSize)
    (hne : buffer ≠ [] ∨ rest ≠ []) : Safe (readName rest buffer) fun name => name ≠ [] := by
  induction rest generalizing buffer with
  | nil => exact Safe.pure (hne.resolve_right fun hrest => hrest rfl)
  | cons c rest ih =>
    have hlast : buffer ++ [c] ≠ [] := by simp
    apply (safe_push h).bind
    rintro _ rfl
    apply safe_errorIf.bind
    intro _ hlen
    split
    · exact ih _ (by omega) (.inl hlast)
    · exact Safe.pure hlast

/-- Nothing is read only when nothing is put in its place. -/
def Reads (v : Nat × CStr) : Prop := v.1 = 0 → v.2 = []

theorem safe_expandName (rest : CStr) (hne : rest ≠ []) : Safe (expandName rest) Reads := by
  apply (safe_readName rest [] (by decide) (.inr hne)).bind
  intro name hname vars _
  apply (safe_copyValue _).bind
  intro value _
  apply Safe.pure
  intro hlen
  exact absurd (length_eq_zero_iff.mp hlen) hname

def Brace.Room (s : Brace) : Prop :=
  s.buffer.length + 2 ≤ expandSize ∧ (s.word.getD []).length + 2 ≤ expandSize

theorem safe_braceWrite (s : Brace) (c : Char) (h : s.Room) :
    Safe (s.write c) fun _ => True := by
  unfold Brace.write
  split
  · exact (safe_push h.1).bind fun _ _ => Safe.pure trivial
  rename_i word hword
  have hlen : word.length + 2 ≤ expandSize := by
    have hroom := h.2
    split at hword
    · rw [hword, getD_some] at hroom
      exact hroom
    · rwa [← some.inj hword]
  exact (safe_push hlen).bind fun _ _ => Safe.pure trivial

def Brace.Dropped (s : Brace) : Prop := s.buffer = [] ∧ s.count = some false

theorem safe_readBrace (rest : CStr) (s : Brace) (h : s.Room) :
    Safe (readBrace rest s) fun s' => s'.addI = 0 → s'.Dropped := by
  induction rest generalizing s with
  | nil => exact Safe.pure fun _ => ⟨rfl, rfl⟩
  | cons c rest ih =>
    rw [readBrace]
    split
    · exact ih _ h
    split
    · exact Safe.pure fun hzero => absurd hzero (Nat.succ_ne_zero _)
    apply (safe_braceWrite ⟨s.addI + 1, some (s.count.getD false), s.buffer, s.word⟩ c h).bind
    intro s' _
    apply safe_errorIf.bind
    intro _ hbuffer
    apply safe_errorIf.bind
    intro _ hword
    apply ih
    refine ⟨by omega, ?_⟩
    cases hw : s'.word with
    | none => decide
    | some word =>
      rw [hw, getD_some] at hword
      rw [getD_some]
      simp only [ne_eq, reduceCtorEq, not_false_eq_true, true_and] at hword
      omega

theorem safe_braceValue (s : Brace) (p : Option CStr) :
    Safe (braceValue s p) fun value => s.Dropped → value = [] := by
  unfold braceValue
  have hnone : s.Dropped → (if s.count = some true then ['0'] else []) = [] := by
    intro hdropped
    rw [hdropped.2]
    rfl
  cases p with
  | none => exact Safe.pure hnone
  | some p =>
    by_cases hbuffer : s.buffer = []
    · simp only [if_pos hbuffer]
      exact Safe.pure hnone
    have hread : ¬ s.Dropped := fun hdropped => hbuffer hdropped.1
    simp only [if_neg hbuffer]
    split
    · exact (safe_printNumber _).weaken fun _ _ hdropped => absurd hdropped hread
    · exact (safe_copyValue _).weaken fun _ _ hdropped => absurd hdropped hread

theorem safe_expandBrace (rest : CStr) : Safe (expandBrace rest) Reads := by
  apply (safe_readBrace rest _ ⟨by decide, by decide⟩).bind
  intro s hs
  apply (safe_expandSubstitute _ _).bind
  intro p _
  apply (safe_braceValue s p).bind
  intro value hvalue
  exact Safe.pure fun hzero => hvalue (hs hzero)

theorem safe_expandNumber (g : Sh → Int) : Safe (expandNumber g) Reads := by
  apply (safe_read g).bind
  intro n _
  apply (safe_printNumber n).bind
  intro r _
  exact Safe.pure fun hzero => absurd hzero (Nat.succ_ne_zero 0)

theorem safe_expandValue (rest : CStr) : Safe (expandValue rest) Reads := by
  unfold expandValue
  simp only
  split
  · exact safe_expandNumber _
  split
  · exact safe_expandNumber _
  split
  · rename_i hvalid
    apply safe_expandName rest
    rintro rfl
    revert hvalid
    decide
  · split
    · exact safe_expandBrace rest.tail
    · exact Safe.pure fun _ => rfl

/-- The result of an expansion: it fits, the rest of the line gets no
longer, and the result is zero only when nothing was read. -/
structure Expanded (rest b : CStr) (r : Nat × CStr × CStr) : Prop where
  rest_le : r.2.1.length ≤ rest.length
  fits : r.2.2.length + 1 ≤ tokenSize
  zero : r.1 = 0 → r.2.2 = b

theorem safe_expand (rest b : CStr) (h : b.length + 1 ≤ tokenSize) :
    Safe (expand rest b) (Expanded rest b) := by
  apply (safe_expandValue rest).bind
  rintro ⟨addI, buffer⟩ hreads
  apply safe_errorIf.bind
  intro _ hroom
  have hlen : b.length + buffer.length + 1 ≤ tokenSize := by
    by_cases hb : buffer = []
    · rwa [hb]
    · have hroom := not_and.mp hroom hb
      unfold tokenEnd at hroom
      omega
  apply (safe_used hlen).bind
  intro _ _
  apply Safe.pure
  refine ⟨?_, ?_, fun hzero => ?_⟩
  · rw [length_drop]
    exact Nat.sub_le _ _
  · rwa [length_append]
  have hbuffer : buffer = [] := by
    split at hzero
    · cases hzero
    · exact hreads hzero
  rw [hbuffer, append_nil]

/-! ## The loop -/

/-- Turns that are left: the rest of the line, and the whole token again as
long as no pattern character was met. -/
def Scan.left (start : CStr) (s : Scan) : Nat :=
  s.rest.length + if s.globMode = 0 then start.length + 1 else 0

def Turn.Good (start : CStr) (n : Nat) : Turn → Prop
  | .next s => s.b.length + 1 ≤ tokenSize ∧ s.left start ≤ n
  | .stop s => s.b.length + 1 ≤ tokenSize
  | .op _ => True

variable {start : CStr} {s : Scan} {n : Nat}

theorem safe_put (start : CStr) (s : Scan) (c : Char) (h : s.b.length + 2 ≤ tokenSize) :
    Safe (s.put c) fun t => t.Good start (s.left start) := by
  apply (safe_push h).bind
  rintro _ rfl
  refine Safe.pure ⟨?_, (Nat.le_refl _)⟩
  rwa [length_append, length_singleton]

theorem safe_putQuoted (start : CStr) (s : Scan) (c : Char) (h : s.b.length + 2 ≤ tokenSize)
    (hglob : s.globMode ≠ 0 → s.b.length + 3 ≤ tokenSize) :
    Safe (s.putQuoted c) fun t => t.Good start (s.left start) := by
  unfold Scan.putQuoted
  split
  · rename_i hpattern
    have hroom := hglob (by rw [hpattern.1]; decide)
    apply (safe_store (by omega)).bind
    rintro _ rfl
    apply safe_put start { s with b := s.b ++ [backslash] }
    rwa [length_append, length_singleton]
  · exact safe_put start s c h

theorem escaped_length {rest rest' : CStr} {c : Char} (h : escaped rest = some (c, rest')) :
    rest'.length ≤ rest.length := by
  cases rest with
  | nil =>
    obtain ⟨-, rfl⟩ := Prod.mk.inj (some.inj h)
    omega
  | cons a rest =>
    simp only [escaped] at h
    split at h
    · cases h
    split at h
    · obtain ⟨-, rfl⟩ := Prod.mk.inj (some.inj h)
      exact Nat.le_succ _
    · obtain ⟨-, rfl⟩ := Prod.mk.inj (some.inj h)
      omega

structure Scan.Room (s : Scan) : Prop where
  room : s.b.length + 2 ≤ tokenSize
  globRoom : s.globMode ≠ 0 → s.b.length + 3 ≤ tokenSize

theorem Turn.Good.mono {t : Turn} {n n' : Nat} (h : t.Good start n) (hle : n ≤ n') :
    t.Good start n' := by
  cases t with
  | next s => exact ⟨h.1, Nat.le_trans h.2 hle⟩
  | stop s => exact h
  | op t => trivial

theorem left_le (start : CStr) (s s' : Scan) (hrest : s'.rest.length ≤ s.rest.length)
    (hglob : s'.globMode = s.globMode) : s'.left start ≤ s.left start := by
  unfold Scan.left
  rw [hglob]
  omega

theorem safe_next (s' : Scan) (hb : s'.b.length + 1 ≤ tokenSize) (hleft : s'.left start ≤ n) :
    Safe (Pure.pure (Turn.next s') : Dsh Turn) fun t => t.Good start n :=
  Safe.pure ⟨hb, hleft⟩

theorem safe_doubleRest (s : Scan) (c : Char) (h : s.Room) :
    Safe (s.doubleRest c) fun t => t.Good start (s.left start) := by
  have hb : s.b.length + 1 ≤ tokenSize := Nat.le_of_succ_le h.room
  unfold Scan.doubleRest
  split
  · split
    · apply safe_next { s with rest := s.rest.tail } hb
      apply left_le start s { s with rest := s.rest.tail } _ rfl
      rw [length_tail]
      omega
    · rename_i c' rest hescaped
      have hput := safe_putQuoted start { s with rest := rest } c' h.room h.globRoom
      have hleft := left_le start s { s with rest := rest } (escaped_length hescaped) rfl
      exact hput.weaken fun t ht => ht.mono hleft
  · exact safe_putQuoted start s c h.room h.globRoom

theorem safe_expanded (s : Scan) (h : s.Room) (g : TokenType → Nat → TokenType)
    {f : Scan → Dsh Turn}
    (hf : ∀ s' : Scan, s'.Room → s'.left start ≤ s.left start →
      Safe (f s') fun t => t.Good start (s'.left start)) :
    Safe (do
      let (r, rest, b) ← expand s.rest s.b
      let s := { s with rest := rest, b := b, type := g s.type r }
      if 0 < r then Pure.pure (Turn.next s) else f s)
      fun t => t.Good start (s.left start) := by
  apply (safe_expand s.rest s.b (Nat.le_of_succ_le h.room)).bind
  rintro ⟨r, rest, b⟩ hexp
  have hleft := left_le start s { s with rest := rest, b := b, type := g s.type r }
    hexp.rest_le rfl
  by_cases hr : 0 < r
  · simp only [if_pos hr]
    exact safe_next _ hexp.fits hleft
  · simp only [if_neg hr]
    obtain rfl : b = s.b := hexp.zero (Nat.eq_zero_of_not_pos hr)
    have hs := hf { s with rest := rest, type := g s.type r } ⟨h.room, h.globRoom⟩ hleft
    exact hs.weaken fun t ht => ht.mono hleft

theorem safe_double (s : Scan) (c : Char) (h : s.Room) :
    Safe (s.double c) fun t => t.Good start (s.left start) := by
  unfold Scan.double
  split
  · exact safe_next { s with quoteMode := .none } (Nat.le_of_succ_le h.room) (Nat.le_refl _)
  · split
    · exact safe_expanded s h (fun t _ => t) fun s' hs' _ => safe_doubleRest s' c hs'
    · exact safe_doubleRest s c h

theorem safe_single (s : Scan) (c : Char) (h : s.Room) :
    Safe (s.single c) fun t => t.Good start (s.left start) := by
  unfold Scan.single
  split
  · exact safe_next { s with quoteMode := .none } (Nat.le_of_succ_le h.room) (Nat.le_refl _)
  · exact safe_putQuoted start s c h.room h.globRoom

/-- The start of a bracket expression: two characters when a `]` follows. -/
theorem safe_bracket (s : Scan) (h : s.Room) (hglob : s.globMode = 1) :
    Safe (match s.rest with
      | ']' :: rest => do
          let b ← store tokenSize s.b '['
          { s with globMode := 2, rest := rest, b := b }.put ']'
      | _ => { s with globMode := 2 }.put '[') fun t => t.Good start (s.left start) := by
  have hroom := h.globRoom (by rw [hglob]; decide)
  have hleft : ∀ rest b, rest.length ≤ s.rest.length →
      ({ s with globMode := 2, rest := rest, b := b } : Scan).left start ≤ s.left start := by
    intro rest b hrest
    unfold Scan.left
    rw [hglob]
    exact Nat.add_le_add_right hrest _
  split
  · rename_i rest hrest
    apply (safe_store (by omega)).bind
    rintro _ rfl
    have hput := safe_put start { s with globMode := 2, rest := rest, b := s.b ++ ['['] }
      ']' (by rw [length_append, length_singleton]; exact hroom)
    have hle := hleft rest (s.b ++ ['[']) (by rw [hrest]; simp)
    exact hput.weaken fun t ht => ht.mono hle
  · have hput := safe_put start { s with globMode := 2 } '[' h.room
    exact hput.weaken fun t ht => ht.mono (hleft s.rest s.b (Nat.le_refl _))

theorem operator_good (s : Scan) (c : Char) (hb : s.b.length + 1 ≤ tokenSize) :
    (s.operator start c).Good start n := by
  unfold Scan.operator
  obtain ⟨value, hvalue⟩ : ∃ value, value = if c = '<' ∨ c = '>' then
    fdValue (-1) (start.take (start.length - (s.rest.length + 1))) else -1 := ⟨_, rfl⟩
  simp only [← hvalue]
  by_cases hstop : s.b ≠ [] ∧ value < 0
  · rwa [if_pos hstop]
  · rw [if_neg hstop]
    trivial

theorem safe_plainRest (s : Scan) (c : Char) (h : s.Room) :
    Safe (s.plainRest start c) fun t => t.Good start (s.left start) := by
  have hb : s.b.length + 1 ≤ tokenSize := Nat.le_of_succ_le h.room
  unfold Scan.plainRest
  split
  · split
    · exact Safe.pure hb
    rename_i c' rest hrest
    have hleft := left_le start s { s with rest := rest }
      (by rw [hrest]; simp) rfl
    split
    · exact safe_next { s with rest := rest } hb hleft
    · have hput := safe_putQuoted start { s with rest := rest } c' h.room h.globRoom
      exact hput.weaken fun t ht => ht.mono hleft
  · split
    · exact safe_next { s with quoteMode := .double, emptyAllowed := true } hb (Nat.le_refl _)
    split
    · exact safe_next { s with quoteMode := .single, emptyAllowed := true } hb (Nat.le_refl _)
    split
    · -- the token is read again, which happens once
      rename_i hfirst
      apply safe_next { s with emptyAllowed := false, globMode := 1, rest := start, b := [] }
      · show 1 ≤ tokenSize
        decide
      · show start.length + 0 ≤ s.rest.length + if s.globMode = 0 then start.length + 1 else 0
        rw [if_pos hfirst.1]
        omega
    · split
      · rename_i hbracket
        obtain ⟨hglob, rfl⟩ := hbracket
        exact safe_bracket s h hglob
      split
      · rename_i hclose
        have hput := safe_put start { s with globMode := 1 } c h.room
        apply hput.weaken
        intro t ht
        apply ht.mono
        unfold Scan.left
        simp
      · split
        · exact Safe.pure hb
        · split
          · exact Safe.pure (operator_good s c hb)
          · exact safe_put start s c h.room

theorem safe_plain (s : Scan) (c : Char) (h : s.Room) :
    Safe (s.plain start c) fun t => t.Good start (s.left start) := by
  unfold Scan.plain
  split
  · exact safe_expanded s h (fun t r => if r = intMax then .max else t)
      fun s' hs' _ => safe_plainRest s' c hs'
  · exact safe_plainRest s c h

theorem safe_turn (s : Scan) (c : Char) :
    Safe (s.turn start c) fun t => t.Good start (s.left start) := by
  apply safe_errorIf.bind
  intro _ hroom
  apply safe_errorIf.bind
  intro _ hglob
  have h : s.Room := by
    unfold tokenEnd at hroom hglob
    refine ⟨by omega, fun hne => ?_⟩
    omega
  split
  · exact safe_double s c h
  · exact safe_single s c h
  · exact safe_plain s c h

theorem safe_scanLoop (start : CStr) (n : Nat) (s : Scan) (hb : s.b.length + 1 ≤ tokenSize)
    (hn : s.left start < n) : Safe (scanLoop start n s) fun t => t.Good start n := by
  induction n generalizing s with
  | zero => cases hn
  | succ n ih =>
    rw [scanLoop]
    split
    · exact Safe.pure hb
    rename_i c rest hrest
    have hleft : ({ s with rest := rest } : Scan).left start < s.left start := by
      unfold Scan.left
      rw [hrest]
      simp only [length_cons]
      omega
    apply (safe_turn { s with rest := rest } c).bind
    intro t ht
    cases t with
    | next s' =>
      have hloop := ih s' ht.1 (by have hle := ht.2; omega)
      exact hloop.weaken fun t ht => ht.mono (Nat.le_succ n)
    | stop s' | op t => exact Safe.pure ht

theorem safe_copyData (b : CStr) : Safe (copyData b) fun _ => True := by
  unfold copyData
  split
  · rename_i hshort
    exact safe_used hshort
  · apply safe_takeMem.bind
    intro mem _
    exact safe_errorIf.weaken fun _ _ => trivial

theorem safe_finishToken (varAllowed : Bool) (s : Scan) :
    Safe (finishToken varAllowed s) fun _ => True := by
  apply safe_errorIf.bind
  intro _ _
  apply safe_errorIf.bind
  intro _ _
  split
  · exact Safe.pure trivial
  · exact (safe_copyData s.b).bind fun _ _ => Safe.pure trivial

theorem safe_dshTokenRead (t : Token) : Safe (dshTokenRead t) fun _ => True := by
  unfold dshTokenRead
  obtain ⟨start, hstart⟩ : ∃ start, start = t.rest.dropWhile fun c => c = ' ' || c.toNat = 9 :=
    ⟨_, rfl⟩
  simp only [← hstart]
  have hloop := safe_scanLoop start (2 * start.length + 2)
    ⟨start, [], .none, 0, false, .null⟩ (show 1 ≤ tokenSize by decide) (by
      show start.length + (start.length + 1) < 2 * start.length + 2
      omega)
  apply hloop.bind
  intro t _
  cases t with
  | next s | stop s => exact safe_finishToken _ s
  | op t => exact Safe.pure trivial

/-- Whatever the line is: no loop runs out of turns and no character is
written outside its buffer. -/
theorem dshTokenRead_faults (t : Token) (sh : Sh) :
    (dshTokenRead t sh).2.faults = sh.faults := by
  obtain ⟨hok, herr⟩ := safe_dshTokenRead t sh.faults sh rfl
  cases h : (dshTokenRead t sh).1 with
  | ok a => exact (hok a h).2
  | error e => exact herr e h

/-- The way to write a character between single quotes. -/
def quoteChar (c : Char) : CStr :=
  if c = apostrophe then [apostrophe, backslash, apostrophe, apostrophe] else [c]

def quoteBody (w : CStr) : CStr := w.flatMap quoteChar

def quoteWord (w : CStr) : CStr := apostrophe :: quoteBody w ++ [apostrophe]

/-- The words, with a space between two of them. -/
def commandLine (words : List CStr) : CStr := [' '].intercalate (words.map quoteWord)

def readTokens : Nat → Token → Dsh (List Token)
  | 0, _ => pure []
  | n + 1, t => do
      let t ← dshTokenRead t
      let ts ← readTokens n t
      pure (t :: ts)

/-! ## Single steps -/

theorem errorIf_neg {c : Prop} [Decidable c] {message : String} (hc : ¬ c) (sh : Sh) :
    errorIf c message sh = (.ok ⟨⟩, sh) := by
  unfold errorIf
  rw [if_neg hc]
  rfl

theorem used_fits {size n : Nat} (h : n ≤ size) (sh : Sh) : used size n sh = (.ok ⟨⟩, sh) := by
  unfold used Prog.act
  simp only [if_pos h]

variable {start b rest tail w : CStr} {s t : Scan} {c : Char} {sh : Sh}

theorem put_fits (h : s.b.length + 2 ≤ tokenSize) (sh : Sh) :
    s.put c sh = (.ok (.next { s with b := s.b ++ [c] }), sh) := by
  have hpush : push tokenSize s.b c sh = (.ok (s.b ++ [c]), sh) := by
    unfold push
    rw [Prog.bind_ok (used_fits h sh)]
    rfl
  unfold Scan.put
  rw [Prog.bind_ok hpush]
  rfl

theorem turn_fits (hb : s.b.length ≤ 510) (hglob : s.globMode = 0) (sh : Sh) :
    s.turn start c sh = (match s.quoteMode with
      | .double => s.double c
      | .single => s.single c
      | .none => s.plain start c) sh := by
  unfold Scan.turn
  rw [Prog.bind_ok (errorIf_neg (by unfold tokenEnd tokenSize; omega) sh),
    Prog.bind_ok (errorIf_neg (by rw [hglob]; simp) sh)]

/-- The scanner between single quotes, and outside of them. -/
def quoted (b rest : CStr) : Scan := ⟨rest, b, .single, 0, true, .null⟩
def unquoted (b rest : CStr) : Scan := ⟨rest, b, .none, 0, true, .null⟩

section

variable (hb : b.length ≤ 510)
include hb

theorem turn_quoted (hc : c ≠ apostrophe) (sh : Sh) :
    (quoted b rest).turn start c sh = (.ok (.next (quoted (b ++ [c]) rest)), sh) := by
  have hroom : (quoted b rest).b.length + 2 ≤ tokenSize := Nat.add_le_add_right hb 2
  rw [turn_fits hb rfl]
  show (quoted b rest).single c sh = _
  unfold Scan.single Scan.putQuoted
  rw [if_neg hc, if_neg (fun h => absurd (h.1) Nat.zero_ne_one), put_fits hroom]
  rfl

theorem turn_close (sh : Sh) :
    (quoted b rest).turn start apostrophe sh = (.ok (.next (unquoted b rest)), sh) := by
  rw [turn_fits hb rfl]
  rfl

theorem turn_open (sh : Sh) :
    (unquoted b rest).turn start apostrophe sh = (.ok (.next (quoted b rest)), sh) := by
  rw [turn_fits hb rfl]
  rfl

theorem turn_escape (sh : Sh) :
    (unquoted b (apostrophe :: rest)).turn start backslash sh =
      (.ok (.next (unquoted (b ++ [apostrophe]) rest)), sh) := by
  have hroom : (unquoted b rest).b.length + 2 ≤ tokenSize := Nat.add_le_add_right hb 2
  rw [turn_fits hb rfl]
  show (unquoted b rest).putQuoted apostrophe sh = _
  unfold Scan.putQuoted
  rw [if_neg (fun h => absurd (h.1) Nat.zero_ne_one), put_fits hroom]
  rfl

theorem turn_blank (sh : Sh) :
    (unquoted b rest).turn start ' ' sh = (.ok (.stop (unquoted b rest)), sh) := by
  rw [turn_fits hb rfl]
  rfl

end

/-! ## A word -/

theorem scanLoop_next (hrest : s.rest = c :: rest)
    (h : ({ s with rest := rest } : Scan).turn start c sh = (.ok (.next t), sh)) :
    scanLoop start (n + 1) s sh = scanLoop start n t sh := by
  obtain ⟨rest', b, quoteMode, globMode, emptyAllowed, type⟩ := s
  obtain rfl : rest' = c :: rest := hrest
  show (Scan.turn _ start c >>= _) sh = _
  rw [Prog.bind_ok h]

/-- What comes after a word: the end of the line, or a space. -/
def afterWord (tail : CStr) : Prop := tail = [] ∨ ∃ rest, tail = ' ' :: rest

theorem scanLoop_end (hb : b.length ≤ 510) (htail : afterWord tail) (hn : 0 < n) (sh : Sh) :
    scanLoop start n (unquoted b tail) sh = (.ok (.stop (unquoted b tail.tail)), sh) := by
  obtain ⟨n, rfl⟩ : ∃ k, n = k + 1 := ⟨n - 1, by omega⟩
  rcases htail with rfl | ⟨rest, rfl⟩
  · rfl
  · show ((unquoted b rest).turn start ' ' >>= _) sh = _
    rw [Prog.bind_ok (turn_blank hb sh)]
    rfl

theorem scanLoop_word (w b : CStr) (htail : afterWord tail) (hlen : b.length + w.length ≤ 510)
    (hn : (quoteBody w).length + 1 < n) (sh : Sh) :
    scanLoop start n (quoted b (quoteBody w ++ apostrophe :: tail)) sh =
      (.ok (.stop (unquoted (b ++ w) tail.tail)), sh) := by
  induction w generalizing b n with
  | nil =>
    obtain ⟨n, rfl⟩ : ∃ k, n = k + 1 := ⟨n - 1, by omega⟩
    rw [scanLoop_next rfl (turn_close hlen sh), scanLoop_end hlen htail (by omega), append_nil]
  | cons c w ih =>
    have hsplit : quoteBody (c :: w) = quoteChar c ++ quoteBody w := flatMap_cons
    have hb : b.length ≤ 510 := Nat.le_of_add_right_le hlen
    have hlen' : (b ++ [c]).length + w.length ≤ 510 := by
      rw [length_append, length_singleton]
      rw [length_cons] at hlen
      omega
    rw [hsplit, length_append] at hn
    rw [hsplit, show b ++ c :: w = b ++ [c] ++ w by simp]
    by_cases hc : c = apostrophe
    · subst hc
      have hquote : quoteChar apostrophe = [apostrophe, backslash, apostrophe, apostrophe] := rfl
      have hb' : (b ++ [apostrophe]).length ≤ 510 := Nat.le_of_add_right_le hlen'
      rw [hquote] at hn ⊢
      simp only [length_cons] at hn
      obtain ⟨n, rfl⟩ : ∃ k, n = k + 3 := ⟨n - 3, by omega⟩
      rw [scanLoop_next rfl (turn_close hb sh), scanLoop_next rfl (turn_escape hb sh),
        scanLoop_next rfl (turn_open hb' sh)]
      exact ih _ hlen' (by omega)
    · have hquote : quoteChar c = [c] := if_neg hc
      rw [hquote] at hn ⊢
      rw [length_singleton] at hn
      obtain ⟨n, rfl⟩ : ∃ k, n = k + 1 := ⟨n - 1, by omega⟩
      rw [scanLoop_next rfl (turn_quoted hb hc sh)]
      exact ih _ hlen' (by omega)

def takeToken (w : CStr) (sh : Sh) : Sh :=
  if w.length < tokenDataSize then sh else { sh with mem := fun i => sh.mem (i + 1) }

/-- A quoted word is read as one token, unless there is no memory for it. -/
theorem dshTokenRead_word (sh : Sh) {t : Token} (ht : t.rest = quoteWord w ++ tail) (htail : afterWord tail)
    (hlen : w.length ≤ 510) (hmem : tokenDataSize ≤ w.length → sh.mem 0 = true) :
    dshTokenRead t sh = (.ok ⟨w, .arg, 0, tail.tail⟩, takeToken w sh) := by
  have hskip : (t.rest.dropWhile fun c => c = ' ' || c.toNat = 9) = quoteWord w ++ tail := by
    rw [ht]
    rfl
  have hbody : quoteWord w ++ tail = apostrophe :: (quoteBody w ++ apostrophe :: tail) := by
    unfold quoteWord
    simp
  have hlength : (quoteBody w).length + 2 ≤ (quoteWord w ++ tail).length := by
    rw [hbody]
    simp only [length_cons, length_append]
    omega
  have hloop : scanLoop (quoteWord w ++ tail) (2 * (quoteWord w ++ tail).length + 2)
      ⟨quoteWord w ++ tail, [], .none, 0, false, .null⟩ sh =
        (.ok (.stop (unquoted w tail.tail)), sh) := by
    rw [scanLoop_next hbody]
    · exact scanLoop_word w [] htail (by rw [length_nil]; omega) (by omega) sh
    · rfl
  have hcopy : copyData w sh = (.ok ⟨⟩, takeToken w sh) := by
    unfold copyData takeToken
    by_cases hshort : w.length < tokenDataSize
    · rw [if_pos hshort, if_pos hshort]
      exact used_fits hshort sh
    · rw [if_neg hshort, if_neg hshort]
      have htrue := hmem (Nat.not_lt.mp hshort)
      rw [Prog.bind_ok (show takeMem sh = (.ok (sh.mem 0), _) from rfl), htrue]
      rfl
  have hfinish : finishToken false (unquoted w tail.tail) sh =
      (.ok ⟨w, .arg, 0, tail.tail⟩, takeToken w sh) := by
    show (copyData w >>= _) sh = _
    rw [Prog.bind_ok hcopy]
    rfl
  unfold dshTokenRead
  simp only [hskip]
  rwa [Prog.bind_ok hloop]

theorem dshTokenRead_end {t : Token} (ht : t.rest = []) (sh : Sh) :
    dshTokenRead t sh = (.ok ⟨[], .null, 0, []⟩, sh) := by
  unfold dshTokenRead
  rw [ht]
  rfl

theorem commandLine_cons (w : CStr) (words : List CStr) :
    ∃ tail, commandLine (w :: words) = quoteWord w ++ tail ∧ afterWord tail ∧
      tail.tail = commandLine words := by
  cases words with
  | nil => exact ⟨[], by simp [commandLine], .inl rfl, rfl⟩
  | cons w' words =>
    refine ⟨' ' :: commandLine (w' :: words), ?_, .inr ⟨_, rfl⟩, rfl⟩
    simp [commandLine]

/-- The tokens of a line of quoted words, when there is memory for them. -/
theorem readTokens_words (words : List CStr) {t : Token} (ht : t.rest = commandLine words)
    (hlen : ∀ w ∈ words, w.length + 2 ≤ tokenSize) (hmem : ∀ i, sh.mem i = true) :
    ∃ ts sh', readTokens (words.length + 1) t sh = (.ok ts, sh') ∧
      ts.map (fun t => (t.type, t.data)) =
        words.map (fun w => (TokenType.arg, w)) ++ [(TokenType.null, [])] := by
  induction words generalizing t sh with
  | nil =>
    refine ⟨[⟨[], .null, 0, []⟩], sh, ?_, rfl⟩
    show (dshTokenRead t >>= _) sh = _
    rw [Prog.bind_ok (dshTokenRead_end ht sh)]
    rfl
  | cons w words ih =>
    obtain ⟨tail, hline, htail, hnext⟩ := commandLine_cons w words
    have hw : w.length ≤ 510 := Nat.le_of_add_le_add_right (hlen w mem_cons_self)
    have hmem' : ∀ i, (takeToken w sh).mem i = true := by
      intro i
      unfold takeToken
      split
      · exact hmem i
      · exact hmem (i + 1)
    have hread := dshTokenRead_word sh (ht.trans hline) htail hw fun _ => hmem 0
    obtain ⟨ts, sh', hts, hmap⟩ := ih (t := ⟨w, .arg, 0, tail.tail⟩) hnext
      (fun w' hw' => hlen w' (.tail _ hw')) hmem'
    refine ⟨⟨w, .arg, 0, tail.tail⟩ :: ts, sh', ?_, by rw [map_cons, hmap]; rfl⟩
    show (dshTokenRead t >>= _) sh = _
    rw [Prog.bind_ok hread]
    show (readTokens (words.length + 1) _ >>= _) _ = _
    rw [Prog.bind_ok hts]
    rfl

/-- A line of quoted words is read as these words and the end of the line;
reading any line ends, and writes in the buffers only. -/
theorem dshTokenRead_quoting :
    (∀ (words : List CStr) (sh : Sh), (∀ w ∈ words, w.length + 2 ≤ tokenSize) →
      (∀ i, sh.mem i = true) →
      ∃ ts sh', readTokens (words.length + 1) (dshTokenInit (commandLine words)) sh =
          (.ok ts, sh') ∧
        ts.map (fun t => (t.type, t.data)) =
          words.map (fun w => (TokenType.arg, w)) ++ [(TokenType.null, [])]) ∧
      ∀ (t : Token) (sh : Sh), (dshTokenRead t sh).2.faults = sh.faults :=
  ⟨fun words _ hlen hmem => readTokens_words words (t := dshTokenInit (commandLine words)) rfl
    hlen hmem, dshTokenRead_faults⟩

def emptyShell : Sh :=
  ⟨dshVarInit [], true, true, 0, 1, fun _ => true, [], []⟩

theorem dshTokenRead_quoting_words : ∃ ts sh', readTokens 4 (dshTokenInit (commandLine
      ["echo".toList, "".toList, "$HOME *?[ ' \x22 | & #".toList])) emptyShell = (.ok ts, sh') ∧
      ts.map (fun t => (t.type, t.data)) = [(.arg, "echo".toList), (.arg, []),
        (.arg, "$HOME *?[ ' \x22 | & #".toList), (.null, [])] :=
  dshTokenRead_quoting.1 ["echo".toList, "".toList, "$HOME *?[ ' \x22 | & #".toList] emptyShell
    (by decide) fun _ => rfl

end Dancy.Shell
