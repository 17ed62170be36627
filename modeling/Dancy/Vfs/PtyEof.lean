import Dancy.Vfs.Pty

/-!
# The end of the file on a terminal

A VEOF on an empty line sets a flag beside `buffer 1`, and the next call of
`n_read_secondary` that finds the buffer empty answers `DE_EMPTY`. That is the
end of the file for the reader if the call hands out no byte: `file_read` drops
the answer when there are bytes. A session keeps, for each VEOF that was typed
on an empty line, how many bytes were put into the buffer before it, and for
each report how many bytes were taken before it.
-/

namespace Dancy.Pty

open Dancy.Lib List

variable {s s' : PtySharedData} {max : Nat}

/-! ## What the calls return -/

/-- Whether the loop of `n_read_secondary` ends with `DE_EMPTY`. -/
def readSecondaryEmpty (icanon : Bool) (veof : UInt8) : Nat → PtySharedData → Bool
  | 0, _ => false
  | left + 1, s =>
    match readBuffer s 1 with
    | (none, s) => s.eof
    | (some c, s) =>
      if c ≠ 0 ∧ c = veof ∧ icanon then false
      else if c = 10 then false
      else readSecondaryEmpty icanon veof left { s with taken := s.taken ++ [c] }

def nReadSecondaryEmpty (s : PtySharedData) (idGroup : Int) (requestedSize : Nat) : Bool :=
  let requestedSize := if s.group > 0 ∧ s.group ≠ idGroup then 0 else requestedSize
  readSecondaryEmpty s.isIcanon (s.termios.cCc veof) requestedSize s

/-- Whether a read reports the end of the file, as `file_read` passes the
answer on. -/
def fileReadEof (s : PtySharedData) (idGroup : Int) (requestedSize : Nat) : Bool :=
  nReadSecondaryEmpty s idGroup requestedSize && (nReadSecondary s idGroup requestedSize).2.isEmpty

/-- Whether the loop of `n_write_main` ends with a VEOF on an empty line. -/
def writeMainEof : List UInt8 → PtySharedData → Bool
  | [], _ => false
  | x :: xs, s =>
    match writeMainByte s x with
    | (s, .next) => writeMainEof xs s
    | (_, .stop) => true
    | (_, .retry) => false

/-- The places of the ends of file typed and reported. -/
structure Session where
  data : PtySharedData
  (typed reported : List Nat)

def Session.create (t : Termios) : Session := ⟨ptyCreate t, [], []⟩

def Session.call (x : Session) : PtyOp → Session
  | .writeMain buffer =>
    let r := (nWriteMain x.data buffer).1
    { x with
      data := r
      typed := if writeMainEof buffer x.data then x.typed ++ [r.input.length] else x.typed }
  | .readSecondary idGroup requestedSize =>
    let r := (nReadSecondary x.data idGroup requestedSize).1
    { x with
      data := r
      reported :=
        if fileReadEof x.data idGroup requestedSize then x.reported ++ [r.taken.length]
        else x.reported }
  | .readMain requestedSize => { x with data := (nReadMain x.data requestedSize).1 }
  | .writeSecondary idGroup buffer => { x with data := (nWriteSecondary x.data idGroup buffer).1 }
  | .tcsets t => { x with data := tcsets x.data t }
  | .tiocspgrp group => { x with data := tiocspgrp x.data group }

def endsLine (t : Termios) (x : UInt8) : Bool :=
  match translate t.cIflag x with
  | none => false
  | some c =>
    !isSignal t c && (c == 10 || isCc t veof c ||
      (isCc t veol c && !isCc t verase c && !isCc t vkill c && !isCc t vwerase c))

/-- No line is ended while the end of the file is still to be reported. -/
def Timely : List UInt8 → PtySharedData → Prop
  | [], _ => True
  | x :: xs, s =>
    (endsLine s.termios x = true → bufferState s 1 ≤ ptyIcanonSize → s.eof = false) ∧
      ((writeMainByte s x).2 = .next → Timely xs (writeMainByte s x).1)

/-- A byte at which a read ends. -/
def StopsRead (icanon : Bool) (veof c : UInt8) : Prop :=
  (c ≠ 0 ∧ c = veof ∧ icanon = true) ∨ c = 10

/-- The read finds no end of the file behind bytes it has taken: none is waiting,
or no byte is in front of it, or the read ends there or before. -/
def ReadApart (s : PtySharedData) (idGroup : Int) (requestedSize : Nat) : Prop :=
  let requestedSize := if s.group > 0 ∧ s.group ≠ idGroup then 0 else requestedSize
  let bytes := (s.buffer 1).ring.contents ptyBufferSize
  s.eof = true → bytes = [] ∨ requestedSize ≤ bytes.length ∨
    ∃ c ∈ bytes, StopsRead s.isIcanon (s.termios.cCc veof) c

/-- A call in canonical mode that ends no line too early, or reads the end of the
file apart from the bytes before it. -/
def Session.Timely (x : Session) : PtyOp → Prop
  | .writeMain buffer => Pty.Timely buffer x.data
  | .readSecondary idGroup requestedSize => ReadApart x.data idGroup requestedSize
  | .tcsets t => has t.cLflag lflagIcanon = true
  | _ => True

theorem typedByte_of_not_endsLine {t : Termios} {x : UInt8} (h : endsLine t x = false)
    (st : List UInt8) : ∃ st', typedByte t st x = .keep st' := by
  unfold endsLine at h
  unfold typedByte
  rcases htr : translate t.cIflag x with _ | c
  · simp
  simp only [htr] at h
  dsimp only
  by_cases hsignal : isSignal t c = true
  · rw [if_pos hsignal]
    exact ⟨[], rfl⟩
  rw [if_neg hsignal, lineByte]
  have hplain : isSignal t c = false := by simpa using hsignal
  simp only [hplain, Bool.not_false, Bool.true_and, Bool.or_eq_false_iff, beq_eq_false_iff_ne] at h
  obtain ⟨⟨hlf, heof⟩, hveol⟩ := h
  rw [if_neg hlf, if_neg (by simp [heof])]
  iterate 3
    split
    · exact ⟨_, rfl⟩
  · next h1 h2 h3 =>
      have : isCc t veol c = false := by simpa [h1, h2, h3] using hveol
      rw [if_neg (by simp [this])]
      exact ⟨_, rfl⟩

theorem writeMainByte_retry (hcanon : s.isIcanon = true) {x : UInt8}
    (hends : endsLine s.termios x = true) (hfull : ptyIcanonSize < bufferState s 1) :
    writeMainByte s x = (s, .retry) := by
  unfold endsLine at hends
  unfold writeMainByte
  rcases htr : translate s.termios.cIflag x with _ | c
  · simp only [htr] at hends
    cases hends
  simp only [htr] at hends
  dsimp only
  have hsignal : isSignal s.termios c = false := by
    rw [Bool.and_eq_true, Bool.not_eq_true'] at hends
    exact hends.1
  rw [if_neg (by simp [hsignal]), if_pos hcanon, if_pos hfull]

theorem writeMainByte_eof (hcanon : s.isIcanon = true) {x : UInt8}
    (htimely : endsLine s.termios x = true → bufferState s 1 ≤ ptyIcanonSize → s.eof = false) :
    (writeMainByte s x).1.isIcanon = true ∧
      (s.eof = true → (writeMainByte s x).1.input = s.input ∧ (writeMainByte s x).1.eof = true ∧
        (writeMainByte s x).2 ≠ .stop) ∧
      (s.eof = false → ((writeMainByte s x).1.eof = true ↔ (writeMainByte s x).2 = .stop)) := by
  rcases writeMainByte_follows hcanon x with ⟨-, hretry⟩ | hfollows
  · rw [hretry]
    refine ⟨hcanon, fun h => ⟨rfl, h, nofun⟩, fun h => ?_⟩
    simp [h]
  by_cases hends : endsLine s.termios x = true
  · have hroom : bufferState s 1 ≤ ptyIcanonSize := by
      by_contra hfull
      rw [writeMainByte_retry hcanon hends (by omega)] at hfollows
      unfold Follows at hfollows
      split at hfollows
      all_goals cases hfollows.1
    have heof := htimely hends hroom
    rcases htyped : typedByte s.termios s.stack x with st | line
    iterate 2
      · rw [htyped] at hfollows
        obtain ⟨hnext, hline⟩ := hfollows
        refine ⟨hline.isIcanon.trans hcanon, fun h => ?_, fun _ => ?_⟩
        · rw [heof] at h
          cases h
        · rw [hnext, hline.eof, heof]
          simp
    · rw [htyped] at hfollows
      obtain ⟨hstop, hline⟩ := hfollows
      refine ⟨hline.isIcanon.trans hcanon, fun h => ?_, fun _ => ?_⟩
      · rw [heof] at h
        cases h
      · rw [hstop, hline.eof]
        simp
  · obtain ⟨st, hst⟩ := typedByte_of_not_endsLine (by simpa using hends) s.stack
    rw [hst] at hfollows
    obtain ⟨hnext, hline⟩ := hfollows
    refine ⟨hline.isIcanon.trans hcanon, fun h => ⟨?_, hline.eof.trans h, ?_⟩, fun h => ?_⟩
    · rw [hline.input, append_nil]
    · rw [hnext]
      nofun
    · rw [hnext, hline.eof, h]
      simp

theorem writeMainLoop_eof (xs : List UInt8) : ∀ {s : PtySharedData} (size : Nat),
    s.isIcanon = true → Timely xs s → (writeMainLoop xs s size).1.isIcanon = true ∧
        (s.eof = true → (writeMainLoop xs s size).1.input = s.input ∧
          (writeMainLoop xs s size).1.eof = true ∧ writeMainEof xs s = false) ∧
        (s.eof = false → (writeMainLoop xs s size).1.eof = writeMainEof xs s) := by
  induction xs with
  | nil => exact fun _ hcanon _ => ⟨hcanon, fun h => ⟨rfl, h, rfl⟩, fun h => h⟩
  | cons x xs ih =>
    intro s size hcanon htimely
    obtain ⟨hfirst, hrest⟩ := htimely
    obtain ⟨h1, h2, h3⟩ := writeMainByte_eof hcanon hfirst
    rw [writeMainLoop, writeMainEof]
    rcases hbyte : writeMainByte s x with ⟨s1, _ | _ | _⟩
    · rw [hbyte] at h1 h2 h3 hrest
      obtain ⟨g1, g2, g3⟩ := ih (size + 1) h1 (hrest rfl)
      refine ⟨g1, fun h => ?_, fun h => ?_⟩
      · obtain ⟨hinput, heof, -⟩ := h2 h
        obtain ⟨ginput, geof, gno⟩ := g2 heof
        exact ⟨ginput.trans hinput, geof, gno⟩
      · have heof : s1.eof = false := by
          rw [← Bool.not_eq_true, h3 h]
          nofun
        exact g3 heof
    · rw [hbyte] at h1 h2 h3
      exact ⟨h1, fun h => absurd rfl (h2 h).2.2, fun h => (h3 h).mpr rfl⟩
    · rw [hbyte] at h1 h2 h3
      refine ⟨h1, fun h => ⟨(h2 h).1, (h2 h).2.1, rfl⟩, fun h => ?_⟩
      rw [← Bool.not_eq_true, h3 h]
      nofun

theorem readBuffer_none {i : Fin 2} (h : (readBuffer s i).1 = none) :
    (s.buffer i).ring.start = (s.buffer i).ring.stop ∧
      ((readBuffer s i).2.buffer i).ring = (s.buffer i).ring := by
  unfold readBuffer at h ⊢
  dsimp only at h ⊢
  split at h
  · cases h
  · next hempty =>
      rw [if_neg hempty]
      exact ⟨not_not.mp hempty, by simp⟩

/-- The flag is cleared by a report, which is made when all bytes are taken. -/
theorem readSecondaryLoop_eof (icanon : Bool) (veof : UInt8) (left : Nat) :
    ∀ (s : PtySharedData) (bs : List UInt8),
      (readSecondaryEmpty icanon veof left s = true → s.eof = true ∧
        (readSecondaryLoop icanon veof left s bs).1.eof = false ∧
        ((readSecondaryLoop icanon veof left s bs).1.buffer 1).ring.start =
          ((readSecondaryLoop icanon veof left s bs).1.buffer 1).ring.stop) ∧
      (readSecondaryEmpty icanon veof left s = false →
        (readSecondaryLoop icanon veof left s bs).1.eof = s.eof) := by
  induction left with
  | zero => exact fun _ _ => ⟨fun h => absurd h Bool.false_ne_true, fun _ => rfl⟩
  | succ left ih =>
    intro s bs
    have hread := (readBuffer_sameLine s 1).2.1
    have hempty := readBuffer_none (s := s) (i := 1)
    rw [readSecondaryLoop, readSecondaryEmpty]
    rcases hc : readBuffer s 1 with ⟨_ | c, s1⟩
    · rw [hc] at hread hempty
      dsimp only at hread hempty ⊢
      obtain ⟨hstop, hring⟩ := hempty rfl
      refine ⟨fun h => ⟨hread ▸ h, rfl, by rw [hring]; exact hstop⟩, fun h => ?_⟩
      rw [← hread, h]
    rw [hc] at hread
    dsimp only at hread ⊢
    split
    · exact ⟨fun h => absurd h Bool.false_ne_true, fun _ => hread⟩
    split
    · exact ⟨fun h => absurd h Bool.false_ne_true, fun _ => hread⟩
    · obtain ⟨h1, h2⟩ := ih { s1 with taken := s1.taken ++ [c] } (bs ++ [c])
      exact ⟨fun h => ⟨hread ▸ (h1 h).1, (h1 h).2⟩, fun h => (h2 h).trans hread⟩

/-- A read that comes to the end of the buffer hands out all that it takes. -/
theorem readSecondaryLoop_all (icanon : Bool) (veof : UInt8) (left : Nat) :
    ∀ (s : PtySharedData) (bs : List UInt8), readSecondaryEmpty icanon veof left s = true →
      ∃ new, (readSecondaryLoop icanon veof left s bs).1.taken = s.taken ++ new ∧
        (readSecondaryLoop icanon veof left s bs).2 = bs ++ new ∧ new.length < left ∧
        ∀ c ∈ new, ¬ StopsRead icanon veof c := by
  induction left with
  | zero => exact fun _ _ h => absurd h Bool.false_ne_true
  | succ left ih =>
    intro s bs h
    have hread := (readBuffer_sameLine s 1).2.2
    rw [readSecondaryEmpty] at h
    rw [readSecondaryLoop]
    rcases hc : readBuffer s 1 with ⟨_ | c, s1⟩
    · rw [hc] at hread
      exact ⟨[], by rw [append_nil]; exact hread, (append_nil bs).symm, Nat.succ_pos left,
        fun _ hmem => absurd hmem not_mem_nil⟩
    rw [hc] at hread h
    dsimp only at hread h ⊢
    split at h
    · cases h
    next hstop =>
      split at h
      · cases h
      next hlf =>
        rw [if_neg hstop, if_neg hlf]
        obtain ⟨new, h1, h2, h3, h4⟩ := ih _ (bs ++ [c]) h
        refine ⟨c :: new, ?_, ?_, Nat.succ_lt_succ h3, forall_mem_cons.mpr ⟨?_, h4⟩⟩
        · rw [h1, hread, append_assoc, singleton_append]
        · rw [h2, append_assoc, singleton_append]
        · rintro (hveof | heq)
          · exact hstop hveof
          · exact hlf heq

theorem readSecondaryLoop_taken (icanon : Bool) (veof : UInt8) (left : Nat) :
    ∀ (s : PtySharedData) (bs : List UInt8),
      s.taken.length ≤ (readSecondaryLoop icanon veof left s bs).1.taken.length ∧
        (readSecondaryLoop icanon veof left s bs).1.group = s.group ∧
        (0 < left → (readSecondaryLoop icanon veof left s bs).1.eof = false ∨
          s.taken.length < (readSecondaryLoop icanon veof left s bs).1.taken.length) := by
  have hgroup : ∀ s : PtySharedData, (readBuffer s 1).2.group = s.group := by
    intro s
    unfold readBuffer
    dsimp only
    split
    · rfl
    · rfl
  induction left with
  | zero => exact fun s _ => ⟨le_rfl, rfl, fun h => absurd h (lt_irrefl 0)⟩
  | succ left ih =>
    intro s bs
    have hread := (readBuffer_sameLine s 1).2.2
    have hg := hgroup s
    rw [readSecondaryLoop]
    rcases hc : readBuffer s 1 with ⟨_ | c, s1⟩
    · rw [hc] at hread hg
      exact ⟨le_of_eq (congrArg length hread.symm), hg, fun _ => .inl rfl⟩
    rw [hc] at hread hg
    dsimp only at hread hg ⊢
    have hlen : (s1.taken ++ [c]).length = s.taken.length + 1 := by
      simp [hread]
    split
    · exact ⟨by dsimp only; omega, hg, fun _ => .inr (by dsimp only; omega)⟩
    split
    · exact ⟨by dsimp only; omega, hg, fun _ => .inr (by dsimp only; omega)⟩
    · obtain ⟨h1, h2, -⟩ := ih { s1 with taken := s1.taken ++ [c] } (bs ++ [c])
      dsimp only at h1 h2
      omega

/-! ## Runs -/

/-- The end of the file is reported in its place: all reports so far are those
of the first VEOFs that were typed, each behind the bytes before it, and at
most one VEOF is still to be reported, behind everything in the buffer. -/
structure EofInv (x : Session) : Prop where
  inv : PtyInv (ptyIcanonSize - 1) x.data
  canonical : x.data.isIcanon = true
  marks : x.typed = x.reported ++ if x.data.eof then [x.data.input.length] else []

variable {x : Session}

section

variable (h : EofInv x)
include h

theorem EofInv.other {data : PtySharedData} (hinv : PtyInv (ptyIcanonSize - 1) data)
    (hcanon : data.isIcanon = true) (heof : data.eof = x.data.eof)
    (hinput : data.input = x.data.input) : EofInv { x with data := data } :=
  ⟨hinv, hcanon, by rw [h.marks, heof, hinput]⟩

theorem EofInv.shown {data : PtySharedData} (hinv : PtyInv (ptyIcanonSize - 1) data)
    (hshown : Shown x.data data) : EofInv { x with data := data } := by
  have hline := hshown.line
  exact h.other hinv (hline.isIcanon.trans h.canonical) hline.eof
    (by rw [hline.input, append_nil])

theorem EofInv.writeMain {buffer : List UInt8} (htimely : Timely buffer x.data) :
    EofInv (x.call (.writeMain buffer)) := by
  obtain ⟨hcanon, hset, hclear⟩ := writeMainLoop_eof buffer 0 h.canonical htimely
  have hcall : ((nWriteMain x.data buffer).1.isIcanon = true) ∧
      (nWriteMain x.data buffer).1.eof = (writeMainLoop buffer x.data 0).1.eof ∧
      (nWriteMain x.data buffer).1.input = (writeMainLoop buffer x.data 0).1.input := by
    unfold nWriteMain
    dsimp only
    split
    all_goals exact ⟨hcanon, rfl, rfl⟩
  refine ⟨h.inv.nWriteMain buffer, hcall.1, ?_⟩
  show (if writeMainEof buffer x.data then x.typed ++ [(nWriteMain x.data buffer).1.input.length]
    else x.typed) = x.reported ++ if (nWriteMain x.data buffer).1.eof then
      [(nWriteMain x.data buffer).1.input.length] else []
  rw [hcall.2.1, hcall.2.2]
  have hmarks := h.marks
  by_cases heof : x.data.eof = true
  · obtain ⟨hinput, heof', hno⟩ := hset heof
    rw [hinput, heof', hno, if_neg (by decide), hmarks, heof]
  have hfalse : x.data.eof = false := by simpa using heof
  rw [if_neg heof, append_nil] at hmarks
  rw [hclear hfalse, hmarks]
  split
  · rfl
  · rw [append_nil]

/-- A read that is apart reports the end of the file whenever the loop ends with it. -/
theorem EofInv.fileReadEof_eq {idGroup : Int} {requestedSize : Nat}
    (hapart : ReadApart x.data idGroup requestedSize) :
    fileReadEof x.data idGroup requestedSize =
      nReadSecondaryEmpty x.data idGroup requestedSize := by
  rw [fileReadEof]
  cases hempty : nReadSecondaryEmpty x.data idGroup requestedSize with
  | false => rfl
  | true =>
    rw [Bool.true_and, List.isEmpty_iff]
    have hinv : PtyInv (ptyIcanonSize - 1) (nReadSecondary x.data idGroup requestedSize).1 :=
      PtyInv.readSecondaryLoop _ _ _ [] h.inv
    have hsame : SameLine x.data (nReadSecondary x.data idGroup requestedSize).1 :=
      readSecondaryLoop_sameLine _ _ _ _ _
    obtain ⟨heof, -, hstop⟩ := (readSecondaryLoop_eof _ _ _ x.data []).1 hempty
    obtain ⟨new, htaken, hbytes, hlen, hnew⟩ := readSecondaryLoop_all _ _ _ x.data [] hempty
    -- all that was in the buffer has been taken
    have hall : x.data.input = x.data.taken ++ new := by
      rw [nReadSecondary] at hinv hsame
      have hfifo := hinv.fifo
      rwa [(Ring.contents_eq_nil (hinv.wf 1)).mpr hstop, append_nil, hsame.input, htaken] at hfifo
    have hsame' : (x.data.buffer 1).ring.contents ptyBufferSize = new :=
      append_cancel_left (h.inv.fifo.symm.trans hall)
    rw [nReadSecondary, hbytes, nil_append]
    rcases hapart heof with hnil | hle | ⟨c, hc, hstops⟩
    · rw [← hsame', hnil]
    · rw [hsame'] at hle
      omega
    · rw [hsame'] at hc
      exact absurd hstops (hnew c hc)

theorem EofInv.readSecondary {idGroup : Int} {requestedSize : Nat}
    (hapart : ReadApart x.data idGroup requestedSize) :
    EofInv (x.call (.readSecondary idGroup requestedSize)) := by
  obtain ⟨left, hleft⟩ : ∃ left, left =
    if x.data.group > 0 ∧ x.data.group ≠ idGroup then 0 else requestedSize := ⟨_, rfl⟩
  have hinv : PtyInv (ptyIcanonSize - 1) (nReadSecondary x.data idGroup requestedSize).1 :=
    PtyInv.readSecondaryLoop _ _ _ [] h.inv
  have hsame : SameLine x.data (nReadSecondary x.data idGroup requestedSize).1 :=
    readSecondaryLoop_sameLine _ _ _ _ _
  obtain ⟨hreport, hquiet⟩ :=
    readSecondaryLoop_eof x.data.isIcanon (x.data.termios.cCc veof) left x.data []
  have hmarks := h.marks
  refine ⟨hinv, ?_, ?_⟩
  · show (nReadSecondary x.data idGroup requestedSize).1.isIcanon = true
    rw [PtySharedData.isIcanon, hsame.termios]
    exact h.canonical
  show x.typed = (if fileReadEof x.data idGroup requestedSize then
      x.reported ++ [(nReadSecondary x.data idGroup requestedSize).1.taken.length]
    else x.reported) ++ if (nReadSecondary x.data idGroup requestedSize).1.eof then
      [(nReadSecondary x.data idGroup requestedSize).1.input.length] else []
  have hloop : (nReadSecondary x.data idGroup requestedSize).1 =
      (readSecondaryLoop x.data.isIcanon (x.data.termios.cCc veof) left x.data []).1 := by
    rw [hleft]
    rfl
  have hempty : nReadSecondaryEmpty x.data idGroup requestedSize =
      readSecondaryEmpty x.data.isIcanon (x.data.termios.cCc veof) left x.data := by
    rw [hleft]
    rfl
  rw [h.fileReadEof_eq hapart, hempty]
  by_cases hbool : readSecondaryEmpty x.data.isIcanon (x.data.termios.cCc veof) left x.data = true
  · obtain ⟨heof, hcleared, hstop⟩ := hreport hbool
    have hall := hinv.fifo
    rw [hloop, (Ring.contents_eq_nil (hloop ▸ hinv.wf 1)).mpr hstop, append_nil, ← hloop,
      hsame.input] at hall
    rw [if_pos hbool, ← hall, hloop, hcleared, hmarks, heof]
    simp
  · have heof := hquiet (by simpa using hbool)
    rw [if_neg hbool, hsame.input, hloop, heof, hmarks]

theorem EofInv.call {op : PtyOp} (htimely : x.Timely op) : EofInv (x.call op) := by
  cases op with
  | writeMain buffer => exact h.writeMain htimely
  | readSecondary idGroup requestedSize => exact h.readSecondary htimely
  | readMain requestedSize =>
    exact h.shown (h.inv.step (.readMain x.data requestedSize))
      (readMainLoop_shown requestedSize x.data []).1
  | writeSecondary idGroup buffer =>
    exact h.shown (h.inv.nWriteSecondary idGroup buffer)
      (nWriteSecondary_shown x.data idGroup buffer).1
  | tcsets t =>
    have hflag : (!has t.cLflag lflagIcanon) = false := by
      rw [htimely]
      rfl
    refine h.other (h.inv.tcsets t) htimely ?_ ?_
    all_goals
      unfold tcsets
      simp [hflag]
  | tiocspgrp group =>
    exact h.other (h.inv.step (.tiocspgrp x.data group)) h.canonical rfl rfl

end

theorem EofInv.create {t : Termios} (hcanon : has t.cLflag lflagIcanon = true) :
    EofInv (.create t) := ⟨PtyInv.create t, hcanon, rfl⟩

/-- A step of the session. -/
def Session.step (x : Session) (op : PtyOp) (x' : Session) : Prop := x' = x.call op

/-- Reads of a byte at least take one more byte each, until no end of the file is waiting. -/
theorem EofInv.answered {idGroup : Int} {ops : List PtyOp} {x' : Session} (h : EofInv x)
    (hgroup : ¬ (x.data.group > 0 ∧ x.data.group ≠ idGroup))
    (hrun : Run (Guarded Session.Timely Session.step) x ops x')
    (hops : ∀ op ∈ ops, ∃ n, 0 < n ∧ op = .readSecondary idGroup n) :
    EofInv x' ∧ x'.data.group = x.data.group ∧ x'.data.input = x.data.input ∧
      x'.typed = x.typed ∧
      (x'.data.eof = false ∨ x.data.taken.length + ops.length ≤ x'.data.taken.length) := by
  induction hrun with
  | nil => exact ⟨h, rfl, rfl, rfl, .inr le_rfl⟩
  | @snoc x1 _ as op _ hs ih =>
    obtain ⟨h1, hg1, hinput1, htyped1, hleft⟩ :=
      ih fun op hop => hops op (mem_append_left _ hop)
    obtain ⟨n, hn, rfl⟩ := hops op (mem_append_right _ mem_cons_self)
    obtain ⟨htimely, rfl⟩ := hs
    have hloop : (x1.call (.readSecondary idGroup n)).data =
        (readSecondaryLoop x1.data.isIcanon (x1.data.termios.cCc veof) n x1.data []).1 := by
      show (nReadSecondary x1.data idGroup n).1 = _
      rw [nReadSecondary, if_neg (by rwa [hg1])]
    obtain ⟨-, hg, hprogress⟩ :=
      readSecondaryLoop_taken x1.data.isIcanon (x1.data.termios.cCc veof) n x1.data []
    have hsame : SameLine x1.data (x1.call (.readSecondary idGroup n)).data :=
      readSecondaryLoop_sameLine _ _ _ _ _
    rw [← hloop] at hg hprogress
    refine ⟨h1.call htimely, hg.trans hg1, hsame.input.trans hinput1, htyped1, ?_⟩
    rw [length_append, length_singleton]
    rcases hprogress hn with heof | hlt
    · exact .inl heof
    rcases hleft with heof | hleft
    · left
      rw [hloop]
      obtain ⟨hreport, hquiet⟩ :=
        readSecondaryLoop_eof x1.data.isIcanon (x1.data.termios.cCc veof) n x1.data []
      rcases hbool : readSecondaryEmpty x1.data.isIcanon (x1.data.termios.cCc veof) n x1.data with
        _ | _
      · exact (hquiet hbool).trans heof
      · exact (hreport hbool).2.1
    · right
      omega

/-- A read of one byte is always apart. -/
theorem ReadApart.one (s : PtySharedData) (idGroup : Int) : ReadApart s idGroup 1 := by
  intro _
  rcases hbytes : (s.buffer 1).ring.contents ptyBufferSize with _ | ⟨c, bs⟩
  · exact .inl rfl
  · refine .inr (.inl ?_)
    rw [length_cons]
    split <;> omega

/-- **End of file**: in a run in canonical mode in which no line is ended while
an end of file is still to be reported, and no read takes bytes and comes to the
end of the file behind them, each VEOF on an empty line is reported once and in its
place, and who reads on, byte by byte or apart in this sense, gets the report. -/
theorem eof_of_run {t : Termios} (hcanon : has t.cLflag lflagIcanon = true) {ops : List PtyOp}
    {x : Session}
    (hrun : Run (Guarded Session.Timely Session.step) (.create t) ops x) :
    x.data.input = x.data.taken ++ (x.data.buffer 1).ring.contents ptyBufferSize ∧
      x.typed = x.reported ++ (if x.data.eof then [x.data.input.length] else []) ∧
      ∀ (idGroup : Int) (reads : List PtyOp) (x' : Session),
        ¬ (x.data.group > 0 ∧ x.data.group ≠ idGroup) →
        (∀ op ∈ reads, ∃ n, 0 < n ∧ op = .readSecondary idGroup n) →
        (x.data.buffer 1).ring.count ptyBufferSize < reads.length →
        Run (Guarded Session.Timely Session.step) x reads x' → x'.reported = x.typed := by
  have h : EofInv x := hrun.invariant
    (fun x op x' (h : EofInv x) hs => by rw [hs.2]; exact h.call hs.1) (.create hcanon)
  refine ⟨h.inv.fifo, h.marks, fun idGroup reads x' hgroup hreads hmany hrun' => ?_⟩
  obtain ⟨h', -, hinput, htyped, hleft⟩ := h.answered hgroup hrun' hreads
  have hall := congrArg length h.inv.fifo
  rw [length_append, Ring.length_contents] at hall
  have hall' := congrArg length h'.inv.fifo
  rw [length_append, hinput] at hall'
  have heof : x'.data.eof = false := by
    rcases hleft with heof | hlong
    · exact heof
    · omega
  have hmarks := h'.marks
  rw [heof, htyped] at hmarks
  simpa using hmarks.symm

/-- A terminal in canonical mode with the characters 4 for VEOF and 59 for VEOL. -/
def eofTermios : Termios :=
  ⟨0, 0, lflagIcanon, fun i => if i = veof then 4 else if i = veol then 59 else 0⟩

/-- The state after these calls. -/
def sessionAfter (ops : List PtyOp) : Session := ops.foldl Session.call (.create eofTermios)

/-- A line and a VEOF are typed and read; the third read reports the end of the file. -/
theorem eof_of_run_read :
    (sessionAfter [.writeMain [97, 10, 4]]).typed = [2] ∧
      (sessionAfter [.writeMain [97, 10, 4], .readSecondary 0 1, .readSecondary 0 1,
        .readSecondary 0 1]).reported = [2] := by
  have hwrite : (sessionAfter []).Timely (.writeMain [97, 10, 4]) :=
    ⟨fun _ _ => by decide, fun _ => ⟨fun _ _ => by decide, fun _ => ⟨fun _ _ => by decide,
      fun h => absurd h (by decide)⟩⟩⟩
  have hrun : Run (Guarded Session.Timely Session.step) (.create eofTermios)
      [.writeMain [97, 10, 4]] (sessionAfter [.writeMain [97, 10, 4]]) :=
    .single ⟨hwrite, rfl⟩
  have hread : ∀ x : Session, Guarded Session.Timely Session.step x (.readSecondary 0 1)
      (x.call (.readSecondary 0 1)) := fun x => ⟨ReadApart.one x.data 0, rfl⟩
  have htyped : (sessionAfter [.writeMain [97, 10, 4]]).typed = [2] := by decide
  refine ⟨htyped, Eq.trans ?_ htyped⟩
  exact (eof_of_run (by decide) hrun).2.2 0 [.readSecondary 0 1, .readSecondary 0 1,
    .readSecondary 0 1] _ (by decide) (by simp) (by decide)
    (((Run.single (hread _)).snoc (hread _)).snoc (hread _))

/-- A session in which this is typed before the first read of ten bytes. -/
def readAfter (writes : List (List UInt8)) : Session :=
  sessionAfter (writes.map .writeMain ++ [.readSecondary 0 10])

/-- A line that is typed behind a VEOF is read before the end of the file is
reported, two VEOFs are reported once, and the report behind a line that VEOL
ended is lost when both are read at once. -/
theorem eof_overtaken :
    ((readAfter [[4], [97, 10]]).typed = [0] ∧ (readAfter [[4], [97, 10]]).reported = [] ∧
        (readAfter [[4], [97, 10]]).data.taken = [97, 10] ∧
        ((readAfter [[4], [97, 10]]).call (.readSecondary 0 10)).reported = [2]) ∧
      ((readAfter [[4], [4]]).typed = [0, 0] ∧ (readAfter [[4], [4]]).reported = [0] ∧
        (readAfter [[4], [4]]).data.eof = false) ∧
      (readAfter [[97, 59], [4]]).typed = [2] ∧ (readAfter [[97, 59], [4]]).reported = [] ∧
        (readAfter [[97, 59], [4]]).data.taken = [97, 59] ∧
        (readAfter [[97, 59], [4]]).data.eof = false := by
  decide

end Dancy.Pty
