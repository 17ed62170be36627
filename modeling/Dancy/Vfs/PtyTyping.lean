import Dancy.Vfs.PtyEdit

/-!
# Typing a line over whole runs

The bytes of a line come in any pieces, with reads and output between them.
What the reader receives at the line feed depends on these bytes only.
-/

namespace Dancy.Pty

open Dancy.Lib List
open Dancy.Common (Scalar utf8Encode)

variable {s s' : PtySharedData} {t : Termios}

/-! ## What is typed -/

/-- A terminal, and the bytes that were taken from the main side. -/
structure Typing where
  data : PtySharedData
  typed : List UInt8

def Typing.call (x : Typing) : PtyOp → Typing
  | .writeMain buffer =>
    let r := nWriteMain x.data buffer
    ⟨r.1, x.typed ++ buffer.take r.2⟩
  | .readMain requestedSize => { x with data := (nReadMain x.data requestedSize).1 }
  | .writeSecondary idGroup buffer => { x with data := (nWriteSecondary x.data idGroup buffer).1 }
  | .readSecondary idGroup requestedSize =>
    { x with data := (nReadSecondary x.data idGroup requestedSize).1 }
  | .tcsets t => { x with data := tcsets x.data t }
  | .tiocspgrp group => { x with data := tiocspgrp x.data group }

def PtyOp.isMode : PtyOp → Bool
  | .tcsets _ => true
  | _ => false

def TypingStep (x : Typing) (op : PtyOp) (x' : Typing) : Prop := op.isMode = false ∧ x' = x.call op

/-- What a byte does to the line, and to the bytes for the reader. -/
def typeByte (t : Termios) (z : List UInt8 × List UInt8) (x : UInt8) : List UInt8 × List UInt8 :=
  match typedByte t z.1 x with
  | .keep st => (st, z.2)
  | .flush line => ([], z.2 ++ line)
  | .eof => ([], z.2)

/-- Whoever types these keys and a line feed on an empty line, in any run from
any state that the terminal can be in, sends this line to the reader. -/
def Receives (t : Termios) (ks : List Key) (line : List UInt8) : Prop :=
  ∀ (t0 : Termios) (ops0 : List PtyOp) (s0 : PtySharedData) (ops : List PtyOp) (x : Typing),
    Run PtyStep (ptyCreate t0) ops0 s0 → s0.termios = t → s0.icanon.size = 0 →
    Run TypingStep ⟨s0, []⟩ ops x →
    x.typed.filterMap (translate t.cIflag) = ks.flatMap (keyBytes t) ++ [10] →
      x.data.input = s0.input ++ (line ++ [10]) ∧
      (x.data.taken = s0.input → ∀ (idGroup : Int) (requestedSize : Nat),
        ¬ (x.data.group > 0 ∧ x.data.group ≠ idGroup) → line.length < requestedSize →
          (nReadSecondary x.data idGroup requestedSize).2 = line ++ [10])

theorem writeMainLoop_typed (xs : List UInt8) : ∀ {s : PtySharedData} (size : Nat),
    s.isIcanon = true →
      size ≤ (writeMainLoop xs s size).2 ∧ (writeMainLoop xs s size).1.termios = s.termios ∧
        ((writeMainLoop xs s size).1.stack, (writeMainLoop xs s size).1.input) =
          (xs.take ((writeMainLoop xs s size).2 - size)).foldl (typeByte s.termios)
            (s.stack, s.input) := by
  induction xs with
  | nil => exact fun size _ => ⟨le_rfl, rfl, by rw [take_nil]; rfl⟩
  | cons x xs ih =>
    intro s size hcanon
    rw [writeMainLoop]
    rcases writeMainByte_follows hcanon x with ⟨-, hretry⟩ | hfollows
    · rw [hretry]
      simp
    -- The byte is taken, and the loop goes on or stops.
    have hnext : ∀ {st input : List UInt8} {eof : Bool},
        (writeMainByte s x).2 = .next → Line s (writeMainByte s x).1 st input eof →
        typeByte s.termios (s.stack, s.input) x = (st, s.input ++ input) →
        size ≤ (writeMainLoop xs (writeMainByte s x).1 (size + 1)).2 ∧
          (writeMainLoop xs (writeMainByte s x).1 (size + 1)).1.termios = s.termios ∧
          ((writeMainLoop xs (writeMainByte s x).1 (size + 1)).1.stack,
            (writeMainLoop xs (writeMainByte s x).1 (size + 1)).1.input) =
            ((x :: xs).take ((writeMainLoop xs (writeMainByte s x).1 (size + 1)).2 - size)).foldl
              (typeByte s.termios) (s.stack, s.input) := by
      intro st input eof _ hline htype
      obtain ⟨h1, h2, h3⟩ := ih (size + 1) (hline.isIcanon.trans hcanon)
      refine ⟨by omega, h2.trans hline.termios, ?_⟩
      rw [h3, hline.termios, hline.stack, hline.input]
      simp [show (writeMainLoop xs (writeMainByte s x).1 (size + 1)).2 - size =
        (writeMainLoop xs (writeMainByte s x).1 (size + 1)).2 - (size + 1) + 1 by omega, htype]
    rcases htyped : typedByte s.termios s.stack x with st | line
    iterate 2
      · rw [htyped] at hfollows
        obtain ⟨hend, hline⟩ := hfollows
        have := hnext hend hline (by simp [typeByte, htyped])
        rcases hbyte : writeMainByte s x with ⟨s1, e⟩
        rw [hbyte] at this hend
        obtain rfl : e = .next := hend
        exact this
    · rw [htyped] at hfollows
      obtain ⟨hend, hline⟩ := hfollows
      rcases hbyte : writeMainByte s x with ⟨s1, e⟩
      rw [hbyte] at hend hline
      obtain rfl : e = .stop := hend
      refine ⟨Nat.le_succ _, hline.termios, ?_⟩
      have hstack : s1.stack = [] := hline.stack
      have hinput : s1.input = s.input := by simpa using hline.input
      simp [typeByte, htyped, hstack, hinput]

/-- Between calls: the mode is the same, and the line and the bytes for the
reader are what was typed. -/
structure TypingInv (s0 : PtySharedData) (x : Typing) : Prop where
  inv : PtyInv (ptyIcanonSize - 1) x.data
  termios : x.data.termios = s0.termios
  follows : (x.data.stack, x.data.input) =
    x.typed.foldl (typeByte s0.termios) (s0.stack, s0.input)

theorem TypingInv.same {s0 : PtySharedData} {x : Typing} (h : TypingInv s0 x) {data : PtySharedData}
    (hinv : PtyInv (ptyIcanonSize - 1) data) (hsame : SameLine x.data data) :
    TypingInv s0 { x with data := data } :=
  ⟨hinv, hsame.termios.trans h.termios, by
    rw [← h.follows, hsame.input]
    exact congrArg (fun st => (st, x.data.input)) (stack_of_icanon hsame.icanon)⟩

theorem Shown.sameLine (h : Shown s s') (hicanon : s'.icanon = s.icanon) : SameLine s s' :=
  ⟨hicanon, by rw [h.line.input, append_nil], h.line.termios⟩

theorem TypingInv.call {s0 : PtySharedData} {x : Typing} {op : PtyOp}
    (hcanon : has s0.termios.cLflag lflagIcanon = true) (h : TypingInv s0 x)
    (hop : op.isMode = false) : TypingInv s0 (x.call op) := by
  have hmode : x.data.isIcanon = true := by
    rwa [PtySharedData.isIcanon, h.termios]
  cases op with
  | writeMain buffer =>
    obtain ⟨-, h1, h2⟩ := writeMainLoop_typed buffer 0 hmode
    have hsize : (nWriteMain x.data buffer).2 = (writeMainLoop buffer x.data 0).2 := rfl
    have hdata : (nWriteMain x.data buffer).1.termios =
          (writeMainLoop buffer x.data 0).1.termios ∧
        ((nWriteMain x.data buffer).1.stack, (nWriteMain x.data buffer).1.input) =
          ((writeMainLoop buffer x.data 0).1.stack, (writeMainLoop buffer x.data 0).1.input) := by
      unfold nWriteMain
      dsimp only
      split
      · exact ⟨rfl, rfl⟩
      · simp
    refine ⟨h.inv.nWriteMain buffer, hdata.1.trans (h1.trans h.termios), ?_⟩
    show ((nWriteMain x.data buffer).1.stack, (nWriteMain x.data buffer).1.input) =
      (x.typed ++ buffer.take (nWriteMain x.data buffer).2).foldl (typeByte s0.termios) _
    rw [foldl_append, ← h.follows, hdata.2, h2, h.termios, hsize, Nat.sub_zero]
  | readMain requestedSize =>
    obtain ⟨h1, h2⟩ := readMainLoop_shown requestedSize x.data []
    exact h.same (h.inv.step (.readMain x.data requestedSize)) (h1.sameLine h2)
  | writeSecondary idGroup buffer =>
    obtain ⟨h1, h2⟩ := nWriteSecondary_shown x.data idGroup buffer
    exact h.same (h.inv.nWriteSecondary idGroup buffer) (h1.sameLine h2)
  | readSecondary idGroup requestedSize =>
    exact h.same (h.inv.step (.readSecondary x.data idGroup requestedSize))
      (readSecondaryLoop_sameLine _ _ _ _ _)
  | tcsets t => cases hop
  | tiocspgrp group => exact h.same (h.inv.step (.tiocspgrp x.data group)) ⟨rfl, rfl, rfl⟩

/-! ## The bytes of a line -/

/-- A byte after the conversions of `c_iflag`. -/
def charByte (t : Termios) (z : List UInt8 × List UInt8) (c : UInt8) : List UInt8 × List UInt8 :=
  if isSignal t c then ([], z.2)
  else
    match lineByte t z.1 c with
    | .keep st => (st, z.2)
    | .flush line => ([], z.2 ++ line)
    | .eof => ([], z.2)

theorem foldl_typeByte (t : Termios) (xs : List UInt8) : ∀ z,
    xs.foldl (typeByte t) z = (xs.filterMap (translate t.cIflag)).foldl (charByte t) z := by
  induction xs with
  | nil => exact fun _ => rfl
  | cons x xs ih =>
    intro z
    rw [foldl_cons, ih]
    rcases htr : translate t.cIflag x with _ | c
    · simp [typeByte, typedByte, htr]
    rw [filterMap_cons_some htr, foldl_cons]
    have hbyte : typeByte t z x = charByte t z c := by
      simp only [typeByte, typedByte, htr, charByte]
      by_cases hsignal : isSignal t c = true
      · rw [if_pos hsignal, if_pos hsignal]
      · rw [if_neg hsignal, if_neg hsignal]
    rw [hbyte]

structure Keeping (t : Termios) (c : UInt8) : Prop where
  signal : isSignal t c = false
  keeps : ∀ st, lineByte t st c = .keep (keepLine t st c)

theorem keeping_of_mem {k : Key} (hk : Typeable t k) : ∀ c ∈ keyBytes t k, Keeping t c := by
  intro c hc
  cases k with
  | char u =>
    have h := hk.2 c hc
    refine ⟨h.signal, fun st => ?_⟩
    simp [keepLine, lineByte, h.lineFeed, h.eof, h.erase, h.kill, h.werase, h.eol]
  | erase =>
    obtain rfl := mem_singleton.mp hc
    refine ⟨hk.signal, fun st => ?_⟩
    simp [keepLine, lineByte, hk.lineFeed, hk.eof, isCc_self hk.set]
  | kill =>
    obtain rfl := mem_singleton.mp hc
    refine ⟨hk.1.signal, fun st => ?_⟩
    simp [keepLine, lineByte, hk.1.lineFeed, hk.1.eof, hk.2, isCc_self hk.1.set]
  | werase =>
    obtain rfl := mem_singleton.mp hc
    refine ⟨hk.1.signal, fun st => ?_⟩
    simp [keepLine, lineByte, hk.1.lineFeed, hk.1.eof, hk.2.1, hk.2.2, isCc_self hk.1.set]

theorem foldl_charByte_keeping (cs : List UInt8) (hcs : ∀ c ∈ cs, Keeping t c) : ∀ z,
    cs.foldl (charByte t) z = (cs.foldl (keepLine t) z.1, z.2) := by
  induction cs with
  | nil => exact fun _ => rfl
  | cons c cs ih =>
    intro z
    have hc := hcs c mem_cons_self
    rw [foldl_cons, ih fun x hx => hcs x (.tail c hx), foldl_cons,
      charByte, if_neg (by simp [hc.signal]), hc.keeps]

theorem popChar_suffix (st : List UInt8) : (popChar st).2 <:+ st := by
  induction st with
  | nil => exact suffix_rfl
  | cons c st ih =>
    cases st with
    | nil => exact nil_suffix
    | cons d st =>
      rw [popChar]
      split
      · exact ih.trans (suffix_cons c _)
      · simp

theorem eraseStack_suffix (word : Int) (rounds : Nat) : ∀ (st : List UInt8) (wordState : Bool),
    eraseStack word rounds st wordState <:+ st := by
  induction rounds with
  | zero => exact fun st _ => suffix_rfl
  | succ rounds ih =>
    intro st wordState
    have hpop := popChar_suffix st
    rw [eraseStack]
    split
    · exact nil_suffix
    dsimp only
    split
    · exact hpop
    split
    · exact hpop
    · exact (ih _ _).trans hpop

variable {ks : List Key}

theorem lineAfter_plain (hks : ∀ k ∈ ks, Typeable t k) :
    ∀ c ∈ lineAfter t ks, Plain t c := by
  have herased : ∀ (st : List UInt8) (c : UInt8) (word : Int), (∀ x ∈ st, Plain t x) →
      ∀ x ∈ erased (stored st c) word, Plain t x := by
    intro st c word hst x hx
    have hx := (eraseStack_suffix word _ _ false).subset hx
    rw [tail_stored] at hx
    split at hx
    · exact hst x hx
    · exact hst x (mem_of_mem_tail hx)
  have hkey : ∀ k, Typeable t k → ∀ st : List UInt8, (∀ x ∈ st, Plain t x) →
      ∀ x ∈ (keyBytes t k).foldl (keepLine t) st, Plain t x := by
    intro k hk st hst x hx
    cases k with
    | char u =>
      have hall : ∀ (cs : List UInt8), (∀ c ∈ cs, Plain t c) → ∀ st : List UInt8,
          (∀ x ∈ st, Plain t x) → ∀ x ∈ cs.foldl (keepLine t) st, Plain t x := by
        intro cs
        induction cs with
        | nil => simp
        | cons c cs ih =>
          intro hcs st hst
          refine ih (fun x hx => hcs x (.tail c hx)) _ fun x hx => ?_
          rw [keepLine_plain (hcs c mem_cons_self), stored] at hx
          split at hx
          · rcases mem_cons.mp hx with rfl | hx
            · exact hcs _ mem_cons_self
            · exact hst x hx
          · exact hst x hx
      exact hall _ hk.2 st hst x hx
    | erase =>
      rw [keyBytes, foldl_cons, foldl_nil, keepLine_erase hk] at hx
      exact herased st _ _ hst x hx
    | kill =>
      rw [keyBytes, foldl_cons, foldl_nil, keepLine_kill hk.1 hk.2] at hx
      exact herased st _ _ hst x hx
    | werase =>
      rw [keyBytes, foldl_cons, foldl_nil, keepLine_werase hk.1 hk.2.1 hk.2.2] at hx
      exact herased st _ _ hst x hx
  have hkeys : ∀ (ks : List Key), (∀ k ∈ ks, Typeable t k) → ∀ st : List UInt8,
      (∀ x ∈ st, Plain t x) → ∀ x ∈ (ks.flatMap (keyBytes t)).foldl (keepLine t) st, Plain t x := by
    intro ks
    induction ks with
    | nil => simp
    | cons k ks ih =>
      intro hks st hst
      rw [flatMap_cons, foldl_append]
      exact ih (fun k' hk' => hks k' (.tail k hk')) _
        (hkey k (hks k mem_cons_self) st hst)
  exact hkeys ks hks [] fun _ hx => absurd hx not_mem_nil

structure LineFeed (t : Termios) : Prop where
  signal : isSignal t 10 = false
  eof : isCc t veof 10 = false

theorem foldl_charByte_line (hlf : LineFeed t) (hks : ∀ k ∈ ks, Typeable t k) (input : List UInt8) :
    (ks.flatMap (keyBytes t) ++ [10]).foldl (charByte t) ([], input) =
      ([], input ++ ((lineAfter t ks).reverse ++ [10])) := by
  have hkeep : ∀ c ∈ ks.flatMap (keyBytes t), Keeping t c := by
    intro c hc
    obtain ⟨k, hk, hc⟩ := mem_flatMap.mp hc
    exact keeping_of_mem (hks k hk) c hc
  rw [foldl_append, foldl_charByte_keeping _ hkeep, foldl_cons, foldl_nil, charByte,
    if_neg (by simp [hlf.signal])]
  have hended : ended (stored (lineAfter t ks) 10) 10 = (lineAfter t ks).reverse ++ [10] := by
    have hno : (lineAfter t ks).head? ≠ some 10 := by
      intro h
      exact (lineAfter_plain hks 10 (mem_of_mem_head? h)).lineFeed rfl
    rw [ended, stored]
    by_cases hroom : (lineAfter t ks).length < ptyIcanonSize - 1
    · simp [if_pos hroom]
    · rw [if_neg hroom, if_neg hno, reverse_cons]
  rw [show lineByte t ((ks.flatMap (keyBytes t)).foldl (keepLine t) []) 10 =
    .flush ((lineAfter t ks).reverse ++ [10]) by rw [← hended]; rfl]

theorem readBuffer_cons {c : UInt8} {rest : List UInt8}
    (hwf : (s.buffer 1).ring.Wf ptyBufferSize)
    (hcontents : (s.buffer 1).ring.contents ptyBufferSize = c :: rest) :
    (readBuffer s 1).1 = some c ∧ ((readBuffer s 1).2.buffer 1).ring.Wf ptyBufferSize ∧
      ((readBuffer s 1).2.buffer 1).ring.contents ptyBufferSize = rest := by
  have hne : (s.buffer 1).ring.start ≠ (s.buffer 1).ring.stop := by
    intro heq
    rw [(Ring.contents_eq_nil hwf).mpr heq] at hcontents
    cases hcontents
  rw [Ring.contents_pop hwf hne 0] at hcontents
  obtain ⟨hc, hrest⟩ := cons.inj hcontents
  unfold readBuffer
  rw [if_pos hne]
  refine ⟨congrArg some hc, ?_, ?_⟩
  · simpa using hwf.pop 0
  · simpa using hrest

theorem readSecondaryLoop_line {icanon : Bool} {veof : UInt8} {line : List UInt8}
    (hline : ∀ c ∈ line ++ [10], ¬ (c ≠ 0 ∧ c = veof ∧ icanon = true))
    (hchars : ∀ c ∈ line, c ≠ 10) : ∀ {left : Nat} {s : PtySharedData} (bs : List UInt8),
      (s.buffer 1).ring.Wf ptyBufferSize →
      (s.buffer 1).ring.contents ptyBufferSize = line ++ [10] → line.length < left →
        (readSecondaryLoop icanon veof left s bs).2 = bs ++ (line ++ [10]) := by
  induction line with
  | nil =>
    intro left s bs hwf hcontents hleft
    obtain ⟨left, rfl⟩ := Nat.exists_eq_succ_of_ne_zero (ne_of_gt hleft)
    obtain ⟨hread, -, -⟩ := readBuffer_cons hwf hcontents
    rcases hc : readBuffer s 1 with ⟨r, s1⟩
    rw [hc] at hread
    obtain rfl : r = some 10 := hread
    rw [readSecondaryLoop, hc]
    dsimp only
    rw [if_neg (hline 10 (by simp)), if_pos rfl]
    rfl
  | cons c line ih =>
    intro left s bs hwf hcontents hleft
    obtain ⟨left, rfl⟩ := Nat.exists_eq_succ_of_ne_zero (ne_of_gt (Nat.zero_lt_of_lt hleft))
    obtain ⟨hread, hwf1, hrest⟩ := readBuffer_cons hwf hcontents
    rcases hc : readBuffer s 1 with ⟨r, s1⟩
    rw [hc] at hread hwf1 hrest
    obtain rfl : r = some c := hread
    rw [readSecondaryLoop, hc]
    dsimp only
    rw [if_neg (hline c (by simp)), if_neg (hchars c mem_cons_self)]
    have hleft' : line.length < left := by
      rw [length_cons] at hleft
      omega
    have hnext := ih (fun x hx => hline x (.tail c hx))
      (fun x hx => hchars x (.tail c hx))
      (s := { s1 with taken := s1.taken ++ [c] }) (bs ++ [c]) hwf1 hrest hleft'
    rw [hnext, append_assoc]
    rfl

theorem isCc_veof {c : UInt8} (h : isCc t veof c = false) (icanon : Bool) :
    ¬ (c ≠ 0 ∧ c = t.cCc veof ∧ icanon = true) := by
  rintro ⟨hne, rfl, -⟩
  rw [isCc_self hne] at h
  cases h

theorem receives_lineAfter (hcanon : has t.cLflag lflagIcanon = true) (hlf : LineFeed t)
    (hks : ∀ k ∈ ks, Typeable t k) : Receives t ks (lineAfter t ks).reverse := by
  intro t0 ops0 s0 ops x hreach htermios hempty hrun htyped
  subst htermios
  have hinv0 : PtyInv (ptyIcanonSize - 1) s0 :=
    hreach.invariant (fun _ _ _ h hs => h.step hs) (.create t0)
  have h : TypingInv s0 x :=
    hrun.invariant (fun _ _ _ h hs => by rw [hs.2]; exact h.call hcanon hs.1) ⟨hinv0, rfl, rfl⟩
  have hstack : s0.stack = [] := by rw [PtySharedData.stack, hempty]; rfl
  have hfollows := h.follows
  rw [foldl_typeByte, htyped, hstack, foldl_charByte_line hlf hks] at hfollows
  have hinput := (Prod.mk.inj hfollows).2
  refine ⟨hinput, fun htaken idGroup requestedSize hgroup hsize => ?_⟩
  have hcontents : (x.data.buffer 1).ring.contents ptyBufferSize =
      (lineAfter s0.termios ks).reverse ++ [10] := by
    have hfifo := h.inv.fifo
    rw [hinput, htaken] at hfifo
    exact (append_cancel_left hfifo).symm
  have hplain : ∀ c ∈ (lineAfter s0.termios ks).reverse, Plain s0.termios c := fun c hc =>
    lineAfter_plain hks c (mem_reverse.mp hc)
  rw [nReadSecondary, if_neg hgroup, h.termios]
  refine readSecondaryLoop_line (fun c hc => ?_) (fun c hc => (hplain c hc).lineFeed) []
    (h.inv.wf 1) hcontents hsize
  rcases mem_append.mp hc with hc | hc
  · exact isCc_veof (hplain c hc).eof _
  · rw [mem_singleton.mp hc]
    exact isCc_veof hlf.eof _

theorem writeMainByte_unread (hinv : PtyInv (ptyIcanonSize - 1) s) (hcanon : s.isIcanon = true)
    (hinput : s.input = []) (x : UInt8) :
    Follows s (writeMainByte s x) (typedByte s.termios s.stack x) := by
  refine (writeMainByte_follows hcanon x).resolve_left fun h => ?_
  have hfifo := congrArg length hinv.fifo
  rw [hinput, length_append, Ring.length_contents, ← bufferState_eq (hinv.wf 1),
    length_nil] at hfifo
  omega

theorem writeMainLoop_takes (xs : List UInt8)
    (hxs : ∀ x ∈ xs, ∀ c, translate t.cIflag x = some c → Keeping t c) :
    ∀ {s : PtySharedData} (size : Nat), PtyInv (ptyIcanonSize - 1) s → s.termios = t →
      s.isIcanon = true → s.input = [] → (writeMainLoop xs s size).2 = size + xs.length := by
  induction xs with
  | nil => exact fun size _ _ _ _ => rfl
  | cons x xs ih =>
    intro s size hinv htermios hcanon hinput
    have hkeep : ∃ st, typedByte s.termios s.stack x = .keep st := by
      rw [typedByte, htermios]
      rcases htr : translate t.cIflag x with _ | c
      · exact ⟨_, rfl⟩
      · have hc := hxs x mem_cons_self c htr
        dsimp only
        rw [if_neg (by simp [hc.signal]), hc.keeps]
        exact ⟨_, rfl⟩
    obtain ⟨st, hst⟩ := hkeep
    have hfollows := writeMainByte_unread hinv hcanon hinput x
    rw [hst] at hfollows
    have hinv' := hinv.writeMainByte x
    rcases hbyte : writeMainByte s x with ⟨s1, e⟩
    rw [hbyte] at hfollows hinv'
    obtain ⟨he, hline⟩ := hfollows
    obtain rfl : e = .next := he
    rw [writeMainLoop, hbyte]
    rw [ih (fun y hy => hxs y (.tail x hy)) (size + 1) hinv'
      (hline.termios.trans htermios) (hline.isIcanon.trans hcanon)
      (by rw [hline.input, hinput, append_nil]), length_cons]
    omega

theorem receives_iff (hcanon : has t.cLflag lflagIcanon = true) (hlf : LineFeed t)
    (hks : ∀ k ∈ ks, Typeable t k) {w : List UInt8} {x : UInt8}
    (hw : w.filterMap (translate t.cIflag) = ks.flatMap (keyBytes t))
    (hx : translate t.cIflag x = some 10) (line : List UInt8) :
    Receives t ks line ↔ line = (lineAfter t ks).reverse := by
  refine ⟨fun h => ?_, fun h => h ▸ receives_lineAfter hcanon hlf hks⟩
  -- A fresh terminal takes the bytes and the line feed.
  have hkeeping : ∀ y ∈ w, ∀ c, translate t.cIflag y = some c → Keeping t c := by
    intro y hy c hc
    have hmem : c ∈ ks.flatMap (keyBytes t) := by
      rw [← hw]
      exact mem_filterMap.mpr ⟨y, hy, hc⟩
    obtain ⟨k, hk, hck⟩ := mem_flatMap.mp hmem
    exact keeping_of_mem (hks k hk) c hck
  obtain ⟨x0, hx0⟩ : ∃ x0 : Typing, x0 = ⟨ptyCreate t, []⟩ := ⟨_, rfl⟩
  have h0 : TypingInv (ptyCreate t) x0 := by
    rw [hx0]
    exact ⟨.create t, rfl, rfl⟩
  have h1 : TypingInv (ptyCreate t) (x0.call (.writeMain w)) := h0.call hcanon rfl
  have h2 : TypingInv (ptyCreate t) ((x0.call (.writeMain w)).call (.writeMain [x])) :=
    h1.call hcanon rfl
  obtain ⟨x1, hx1⟩ : ∃ x1, x1 = x0.call (.writeMain w) := ⟨_, rfl⟩
  rw [← hx1] at h1 h2
  have htyped1 : x1.typed = w := by
    have hsize := writeMainLoop_takes w hkeeping 0 (PtyInv.create t) rfl hcanon rfl
    rw [hx1, hx0]
    show [] ++ w.take (writeMainLoop w (ptyCreate t) 0).2 = w
    simp [hsize]
  have hinput1 : x1.data.input = [] := by
    have hkept : ∀ c ∈ ks.flatMap (keyBytes t), Keeping t c := by
      intro c hc
      obtain ⟨k, hk, hc⟩ := mem_flatMap.mp hc
      exact keeping_of_mem (hks k hk) c hc
    have hfollows := h1.follows
    rw [foldl_typeByte, htyped1, show (ptyCreate t).termios = t from rfl, hw,
      foldl_charByte_keeping _ hkept] at hfollows
    exact (Prod.mk.inj hfollows).2
  have htyped2 : (x1.call (.writeMain [x])).typed = w ++ [x] := by
    have hcanon1 : x1.data.isIcanon = true := by
      rwa [PtySharedData.isIcanon, h1.termios]
    have hend : typedByte x1.data.termios x1.data.stack x =
        .flush (ended (stored x1.data.stack 10) 10) := by
      rw [h1.termios, show (ptyCreate t).termios = t from rfl, typedByte, hx]
      dsimp only
      rw [if_neg (by simp [hlf.signal])]
      rfl
    have hfollows := writeMainByte_unread h1.inv hcanon1 hinput1 x
    rw [hend] at hfollows
    have hsize : (writeMainLoop [x] x1.data 0).2 = 1 := by
      rcases hbyte : writeMainByte x1.data x with ⟨s1, e⟩
      rw [hbyte] at hfollows
      obtain rfl : e = .next := hfollows.1
      rw [writeMainLoop, hbyte]
      rfl
    show x1.typed ++ [x].take (writeMainLoop [x] x1.data 0).2 = _
    rw [hsize, htyped1, take_one, head?_cons]
    rfl
  -- The line that is promised is the one that is there.
  have hrun : Run TypingStep ⟨ptyCreate t, []⟩ ([.writeMain w] ++ [.writeMain [x]])
      (x1.call (.writeMain [x])) := by
    rw [hx1, hx0]
    exact .snoc (.single ⟨rfl, rfl⟩) ⟨rfl, rfl⟩
  have hall : (x1.call (.writeMain [x])).typed.filterMap (translate t.cIflag) =
      ks.flatMap (keyBytes t) ++ [10] := by
    rw [htyped2, filterMap_append, hw, filterMap_cons_some hx]
    rfl
  have hpromised := (h t [] (ptyCreate t) _ _ (.nil _) rfl rfl hrun hall).1
  have hthere :=
    (receives_lineAfter hcanon hlf hks t [] (ptyCreate t) _ _ (.nil _) rfl rfl hrun hall).1
  rw [hthere] at hpromised
  exact (append_cancel_right (append_cancel_left hpromised)).symm

/-! ## Whole lines -/

theorem editKey_scalar {ls : List Nat} {k : Key} (hls : ∀ u ∈ ls, Scalar u) (hk : Typeable t k) :
    ∀ u ∈ editKey ls k, Scalar u := by
  intro u hu
  cases k with
  | char v =>
    rcases mem_cons.mp hu with rfl | hu
    · exact hk.1
    · exact hls u hu
  | erase => exact hls u (mem_of_mem_tail hu)
  | kill => cases hu
  | werase =>
    have hsuffix : eraseWord ls <:+ ls := (dropWhile_suffix _).trans (dropWhile_suffix _)
    exact hls u (hsuffix.subset hu)

/-- The terminal has the line that is meant after each key, just when no key
takes too much away. -/
theorem foldl_keys_iff (hks : ∀ k ∈ ks, Typeable t k) : ∀ {ls : List Nat}, (∀ u ∈ ls, Scalar u) →
    (∀ p, p <+: ks → (bytesOf (p.foldl editKey ls)).length ≤ ptyIcanonSize - 1) →
      ((∀ p, p <+: ks → (p.flatMap (keyBytes t)).foldl (keepLine t) (bytesOf ls) =
        bytesOf (p.foldl editKey ls)) ↔ Unspoiled ls ks) := by
  induction ks with
  | nil =>
    intro ls _ _
    refine ⟨fun _ => trivial, fun _ p hp => ?_⟩
    rw [prefix_nil.mp hp]
    rfl
  | cons k ks ih =>
    intro ls hls hfit
    have hk := hks k mem_cons_self
    have hnow := foldl_keyBytes_iff hls (hfit [] nil_prefix)
      (hfit [k] ((prefix_cons_inj k).mpr nil_prefix)) hk
    have hlater := ih (fun k' hk' => hks k' (.tail k hk')) (editKey_scalar hls hk)
      fun p hp => hfit (k :: p) ((prefix_cons_inj k).mpr hp)
    have hcons : ∀ p : List Key, ((k :: p).flatMap (keyBytes t)).foldl (keepLine t) (bytesOf ls) =
        (p.flatMap (keyBytes t)).foldl (keepLine t)
          ((keyBytes t k).foldl (keepLine t) (bytesOf ls)) := by
      intro p
      simp
    rw [Unspoiled, ← hlater, ← hnow]
    constructor
    · intro h
      have hfirst := h [k] ((prefix_cons_inj k).mpr nil_prefix)
      rw [hcons] at hfirst
      refine ⟨hfirst, fun p hp => ?_⟩
      have hrest := h (k :: p) ((prefix_cons_inj k).mpr hp)
      rw [hcons, show (keyBytes t k).foldl (keepLine t) (bytesOf ls) = _ from hfirst] at hrest
      exact hrest
    · rintro ⟨hfirst, hrest⟩ p hp
      rcases prefix_cons_iff.mp hp with rfl | ⟨q, rfl, hq⟩
      · rfl
      · rw [hcons, hfirst]
        exact hrest q hq

/-- **Line editing**: what is received for each beginning of what is typed is
the line that is meant, just when no editing character meets a full line in a
way that takes too much away. -/
theorem line_received (hcanon : has t.cLflag lflagIcanon = true) (hlf : LineFeed t)
    {ks : List Key} (hks : ∀ k ∈ ks, Typeable t k) {w : List UInt8} {x : UInt8}
    (hw : w.filterMap (translate t.cIflag) = ks.flatMap (keyBytes t))
    (hx : translate t.cIflag x = some 10)
    (hfit : ∀ p, p <+: ks → (textOf (p.foldl editKey [])).length ≤ ptyIcanonSize - 1) :
    (∀ p, p <+: ks → Receives t p (textOf (p.foldl editKey []))) ↔ Unspoiled [] ks := by
  have hfit' : ∀ p, p <+: ks → (bytesOf (p.foldl editKey [])).length ≤ ptyIcanonSize - 1 := by
    intro p hp
    have := hfit p hp
    rwa [textOf_eq, length_reverse] at this
  have hempty : ∀ u ∈ ([] : List Nat), Scalar u := nofun
  rw [← foldl_keys_iff hks hempty hfit']
  refine forall₂_congr fun p hp => ?_
  -- The bytes of a beginning are typed with a beginning of the bytes.
  obtain ⟨rest, rfl⟩ := hp
  rw [flatMap_append] at hw
  obtain ⟨w1, w2, _, hw1, _⟩ := filterMap_eq_append_iff.mp hw
  rw [receives_iff hcanon hlf (fun k hk => hks k (mem_append_left rest hk)) hw1 hx,
    textOf_eq, reverse_inj, eq_comm]
  rfl

/-- A terminal in canonical mode with the editing characters 127, 21 and 23. -/
def editTermios : Termios :=
  ⟨0, 0, lflagIcanon, fun i =>
    if i = verase then 127 else if i = vkill then 21 else if i = vwerase then 23 else 0⟩

theorem typeable_a : Typeable editTermios (.char 97) := by
  refine ⟨by decide, fun c hc => ?_⟩
  obtain rfl : c = 97 := mem_singleton.mp hc
  exact ⟨by decide, by decide, by decide, by decide, by decide, by decide, by decide⟩

theorem typeable_erase : Typeable editTermios .erase :=
  ⟨by decide, by decide, by decide, by decide⟩

/-- A character is typed and erased. -/
theorem line_received_a :
    Unspoiled [] [Key.char 97, .erase] ∧ ∀ p, p <+: [Key.char 97, .erase] →
        Receives editTermios p (textOf (p.foldl editKey [])) := by
  have hkept : Unspoiled [] [Key.char 97, .erase] :=
    ⟨fun h => h, by rintro ⟨h, -⟩; exact absurd h (by decide), trivial⟩
  have hks : ∀ k ∈ [Key.char 97, .erase], Typeable editTermios k := by
    intro k hk
    rcases mem_cons.mp hk with rfl | hk
    · exact typeable_a
    · rw [mem_singleton.mp hk]
      exact typeable_erase
  have hfit : ∀ p, p <+: [Key.char 97, .erase] →
      (textOf (p.foldl editKey [])).length ≤ ptyIcanonSize - 1 := by
    intro p hp
    rcases prefix_cons_iff.mp hp with rfl | ⟨q, rfl, hq⟩
    · decide
    rcases prefix_cons_iff.mp hq with rfl | ⟨r, rfl, hr⟩
    · decide
    · rw [prefix_nil.mp hr]
      decide
  have hlf : LineFeed editTermios := ⟨by decide, by decide⟩
  exact ⟨hkept, (line_received (by decide) hlf hks (w := [97, 127]) (x := 10) (by decide)
    (by decide) hfit).mpr hkept⟩

def fullLineErase : List Key := replicate (ptyIcanonSize - 1) (.char 97) ++ [.erase]

theorem foldl_editKey_replicate (n : Nat) : ∀ ls : List Nat,
    (replicate n (Key.char 97)).foldl editKey ls = replicate n 97 ++ ls := by
  induction n with
  | zero => exact fun _ => rfl
  | succ n ih =>
    intro ls
    rw [replicate_succ, foldl_cons, ih, replicate_succ', append_assoc]
    rfl

theorem flatMap_keyBytes_replicate (t : Termios) (n : Nat) :
    (replicate n (Key.char 97)).flatMap (keyBytes t) = replicate n 97 := by
  induction n with
  | zero => rfl
  | succ n ih =>
    rw [replicate_succ, flatMap_cons, ih]
    rfl

theorem bytesOf_replicate (n : Nat) : bytesOf (replicate n 97) = replicate n 97 := by
  induction n with
  | zero => rfl
  | succ n ih =>
    rw [replicate_succ, bytesOf_cons, ih]
    rfl

theorem lineAfter_fullLineErase :
    lineAfter editTermios fullLineErase = replicate (ptyIcanonSize - 3) 97 := by
  have hplain : ∀ c ∈ replicate (ptyIcanonSize - 1) (97 : UInt8), Plain editTermios c := by
    intro c hc
    rw [eq_of_mem_replicate hc]
    exact typeable_a.2 97 mem_cons_self
  obtain ⟨n, hn⟩ : ∃ n, ptyIcanonSize - 1 = n + 2 := ⟨4093, by decide⟩
  have hless : ptyIcanonSize - 3 = n := by omega
  have hfull : (replicate (ptyIcanonSize - 1) (97 : UInt8)).foldl (keepLine editTermios) [] =
      replicate (n + 2) 97 := by
    rw [foldl_keepLine_plain _ hplain [] (by simp), reverse_replicate, append_nil, hn]
  rw [lineAfter, fullLineErase, flatMap_append, flatMap_keyBytes_replicate, foldl_append,
    hfull, flatMap_singleton, keyBytes, foldl_cons, foldl_nil,
    keepLine_erase typeable_erase, erased, tail_stored, if_neg (by simp [hn]), hless,
    tail_replicate]
  exact eraseStack_char (by simp) (popChar_conts (by decide : isContinuation 97 = false) _ []
    fun _ hx => absurd hx not_mem_nil) false

/-- A full line loses two characters to one VERASE. -/
theorem full_line_erased :
    textOf (fullLineErase.foldl editKey []) = replicate (ptyIcanonSize - 2) 97 ∧
      Receives editTermios fullLineErase (replicate (ptyIcanonSize - 3) 97) ∧
      ¬ Receives editTermios fullLineErase (replicate (ptyIcanonSize - 2) 97) := by
  have hks : ∀ k ∈ fullLineErase, Typeable editTermios k := by
    intro k hk
    rcases mem_append.mp hk with hk | hk
    · rw [eq_of_mem_replicate hk]
      exact typeable_a
    · rw [mem_singleton.mp hk]
      exact typeable_erase
  have hlf : LineFeed editTermios := ⟨by decide, by decide⟩
  have htyped : (fullLineErase.flatMap (keyBytes editTermios)).filterMap
      (translate editTermios.cIflag) = fullLineErase.flatMap (keyBytes editTermios) := by
    rw [fullLineErase, flatMap_append, flatMap_keyBytes_replicate, filterMap_append,
      filterMap_replicate]
    rfl
  have hreceived : ∀ line, Receives editTermios fullLineErase line ↔
      line = replicate (ptyIcanonSize - 3) 97 := by
    intro line
    rw [receives_iff (by decide) hlf hks htyped (x := 10) (by decide), lineAfter_fullLineErase,
      reverse_replicate]
  refine ⟨?_, (hreceived _).mpr rfl, fun h => ?_⟩
  · obtain ⟨n, hn⟩ : ∃ n, ptyIcanonSize - 1 = n + 1 := ⟨4094, by decide⟩
    have hless : ptyIcanonSize - 2 = n := by omega
    rw [fullLineErase, foldl_append, foldl_editKey_replicate, append_nil, hn, hless,
      foldl_cons, foldl_nil, editKey, tail_replicate, textOf_eq, bytesOf_replicate,
      reverse_replicate]
    rfl
  · have hlength := congrArg length ((hreceived _).mp h)
    rw [length_replicate, length_replicate] at hlength
    exact absurd hlength (by decide)

end Dancy.Pty
