import Dancy.Lib.Run
import Mathlib.Algebra.Order.Ring.Nat

/-!
# hexdump

Lines of sixteen bytes, with one `*` for lines that are equal to the one
before. The offset, the line before and the state of the `*` stand in
static variables, and a read of any length is printed at once.
-/

namespace Dancy.Hexdump

open Dancy.Lib List

structure Options where
  canonical : Bool
  verbose : Bool

/-- The static variables and the output so far; `offset` does not wrap here. -/
structure HexState where
  offset : Nat := 0
  prevBuffer : List UInt8 := replicate 16 0
  state : Bool := false
  out : List Char := []

/-- `%0*x`. -/
def hex (width n : Nat) : List Char := (Nat.toDigits 16 n).leftpad width '0'

def offsetText (opt : Options) (offset : Nat) : List Char :=
  hex (if opt.canonical then 8 else 7) offset

def lineText (opt : Options) (offset : Nat) (buffer : List UInt8) : List Char :=
  offsetText opt offset ++
    if opt.canonical then
      "  ".toList ++ ((range 16).flatMap fun i =>
          (if i < buffer.length then hex 2 (buffer.getD i 0).toNat ++ [' '] else "   ".toList) ++
            if i = 7 ∨ i = 15 then [' '] else []) ++
        ['|'] ++ buffer.map (fun b => if 0x20 ≤ b ∧ b ≤ 0x7E then Char.ofNat b.toNat else '.') ++
        "|\n".toList
    else
      ((range 8).flatMap fun k =>
        if 2 * k < buffer.length then
          [' '] ++ hex 2 (buffer.getD (2 * k + 1) 0).toNat ++ hex 2 (buffer.getD (2 * k) 0).toNat
        else "     ".toList) ++ ['\n']

variable (opt : Options)

/-- The part of `print_line` that prints. -/
def showLine (st : HexState) (buffer : List UInt8) : HexState :=
  { st with
    out := st.out ++ lineText opt st.offset buffer
    offset := st.offset + buffer.length }

def printLine (st : HexState) (buffer : List UInt8) : HexState :=
  if opt.verbose = false ∧ buffer.length = 16 then
    if st.offset ≠ 0 ∧ st.offset % 16 = 0 then
      if st.prevBuffer = buffer then
        { st with
          out := st.out ++ if st.state then [] else "*\n".toList
          state := true
          offset := st.offset + 16 }
      else showLine opt { st with state := false, prevBuffer := buffer } buffer
    else showLine opt { st with prevBuffer := buffer } buffer
  else showLine opt st buffer

/-- Bytes in lines of sixteen, behind `line`; only the last line is shorter. -/
def linesFrom : List UInt8 → List UInt8 → List (List UInt8)
  | line, [] => if line = [] then [] else [line]
  | line, c :: rest =>
    if line.length = 15 then (line ++ [c]) :: linesFrom [] rest else linesFrom (line ++ [c]) rest

/-- The loop of `read_input`: what the reads return, with the bytes that wait
in the buffer; the last read returns nothing. -/
def readLoop (st : HexState) : List UInt8 → List (List UInt8) → HexState
  | buffer, [] => (linesFrom [] buffer).foldl (printLine opt) st
  | buffer, piece :: pieces =>
    if (buffer ++ piece).length < 16 then readLoop st (buffer ++ piece) pieces
    else readLoop ((linesFrom [] (buffer ++ piece)).foldl (printLine opt) st) [] pieces

/-- `read_input` on one file, and `offset = 0` behind it. -/
def hd (st : HexState) (pieces : List (List UInt8)) : HexState :=
  let st := readLoop opt st [] pieces
  { st with
    out := st.out ++ if st.offset > 0 then offsetText opt st.offset ++ ['\n'] else []
    offset := 0 }

/-! ## The reference -/

/-- The dump of lines behind the line `prev`, which a `*` stands for or not. -/
def dumpLines : Option (List UInt8) → Bool → Nat → List (List UInt8) → List Char
  | _, _, _, [] => []
  | prev, starred, offset, line :: rest =>
    if opt.verbose = false ∧ line.length = 16 ∧ prev = some line then
      (if starred then [] else "*\n".toList) ++ dumpLines prev true (offset + 16) rest
    else lineText opt offset line ++ dumpLines (some line) false (offset + line.length) rest

def dump (bytes : List UInt8) : List Char :=
  dumpLines opt none false 0 (linesFrom [] bytes) ++
    if bytes = [] then [] else offsetText opt bytes.length ++ ['\n']

/-- Each time sixteen bytes or more have come their number is a multiple of
sixteen, or the file ends. -/
def Whole : Nat → List (List UInt8) → Prop
  | _, [] => True
  | waiting, piece :: pieces =>
    if waiting + piece.length < 16 then Whole (waiting + piece.length) pieces
    else (pieces = [] ∨ (waiting + piece.length) % 16 = 0) ∧ Whole 0 pieces

/-- The first two lines are not equal, where a `*` of the file before stands. -/
def Unstarred (st : HexState) (bytes : List UInt8) : Prop :=
  opt.verbose = true ∨ st.state = false ∨ bytes.length < 32 ∨
    bytes.take 16 ≠ (bytes.drop 16).take 16

def Ready (st : HexState) (pieces : List (List UInt8)) : Prop :=
  Whole 0 pieces ∧ Unstarred opt st pieces.flatten

def Lined : List (List UInt8) → Prop
  | [] => True
  | line :: rest => (rest = [] ∨ line.length = 16) ∧ Lined rest

variable {opt} {st : HexState} {bytes : List UInt8} {pieces : List (List UInt8)}

theorem linesFrom_append : ∀ {line a : List UInt8} (b : List UInt8), line.length < 16 →
    (line.length + a.length) % 16 = 0 →
    linesFrom line (a ++ b) = linesFrom line a ++ linesFrom [] b := by
  intro line a
  induction a generalizing line with
  | nil =>
    intro b hline hmod
    rw [length_nil] at hmod
    rw [length_eq_zero_iff.mp (by omega : line.length = 0)]
    rfl
  | cons c a ih =>
    intro b hline hmod
    rw [length_cons] at hmod
    rw [cons_append, linesFrom, linesFrom]
    split
    · rw [ih b (by simp) (by simp; omega), cons_append]
    · exact ih b (by simp; omega) (by simp; omega)

theorem linesFrom_lined : ∀ {line : List UInt8}, line.length < 16 → Lined (linesFrom line bytes) := by
  induction bytes with
  | nil =>
    intro line _
    rw [linesFrom]
    split
    · trivial
    · exact ⟨.inl rfl, trivial⟩
  | cons c bytes ih =>
    intro line hline
    rw [linesFrom]
    split
    · exact ⟨.inr (by simp; omega), ih (by simp)⟩
    · exact ih (by simp; omega)

theorem linesFrom_flatten : ∀ {line : List UInt8},
    (linesFrom line bytes).flatten = line ++ bytes := by
  induction bytes with
  | nil =>
    intro line
    rw [linesFrom]
    split <;> simp_all
  | cons c bytes ih =>
    intro line
    rw [linesFrom]
    split <;> simp [ih]

/-- Whole pieces are printed as the file is. -/
theorem readLoop_whole : ∀ {st : HexState} {buffer : List UInt8}, buffer.length < 16 →
    Whole buffer.length pieces →
    readLoop opt st buffer pieces =
      (linesFrom [] (buffer ++ pieces.flatten)).foldl (printLine opt) st := by
  induction pieces with
  | nil => exact fun _ _ => by simp [readLoop]
  | cons piece pieces ih =>
    intro st buffer hbuffer h
    rw [Whole] at h
    rw [readLoop, flatten_cons, ← append_assoc, length_append]
    split at h
    · rename_i hlt
      rw [if_pos hlt]
      exact ih (by rwa [length_append]) (by rwa [length_append])
    · rename_i hge
      have hrest := @ih ((linesFrom [] (buffer ++ piece)).foldl (printLine opt) st) [] (by simp) h.2
      rw [if_neg hge, hrest, nil_append]
      rcases h.1 with rfl | hmod
      · simp [linesFrom]
      · have happend := @linesFrom_append [] (buffer ++ piece) pieces.flatten (by simp)
          (by simpa using hmod)
        rw [happend, foldl_append]

theorem printLine_offset (st : HexState) (line : List UInt8) :
    (printLine opt st line).offset = st.offset + line.length := by
  unfold printLine
  split
  · rename_i hfull
    split
    · split
      · rw [hfull.2]
      · rfl
    · rfl
  · rfl

theorem printLines_offset (lines : List (List UInt8)) :
    ∀ st, (lines.foldl (printLine opt) st).offset = st.offset + lines.flatten.length := by
  induction lines with
  | nil => exact fun _ => rfl
  | cons line lines ih =>
    intro st
    rw [foldl_cons, ih, printLine_offset, flatten_cons, length_append, add_assoc]

/-- Lines behind the first one. -/
theorem printLines_out {lines : List (List UInt8)} :
    ∀ {st : HexState} {prev : Option (List UInt8)} {starred : Bool}, Lined lines →
      0 < st.offset → st.offset % 16 = 0 → opt.verbose = true ∨ prev = some st.prevBuffer →
      opt.verbose = true ∨ st.state = starred ∨ lines.head? ≠ some st.prevBuffer →
      (lines.foldl (printLine opt) st).out = st.out ++ dumpLines opt prev starred st.offset lines := by
  induction lines with
  | nil => exact fun _ _ _ _ _ => (append_nil _).symm
  | cons line lines ih =>
    intro st prev starred hlined hpos hmod hprev hstate
    rw [foldl_cons, dumpLines]
    by_cases hv : opt.verbose = true
    · have hprint : printLine opt st line = showLine opt st line := by
        rw [printLine, if_neg (by simp [hv])]
      rw [hprint, if_neg (by simp [hv])]
      rcases hlined.1 with rfl | hfull
      · simp [showLine, dumpLines]
      · rw [@ih (showLine opt st line) (some line) false hlined.2 (by simp [showLine, hpos])
          (by simp [showLine]; omega) (.inl hv) (.inl hv)]
        simp [showLine]
    have hv' : opt.verbose = false := by simpa using hv
    have hprev' := hprev.resolve_left hv
    have hstate' := hstate.resolve_left hv
    rw [hprev']
    by_cases hfull : line.length = 16
    · rw [printLine, if_pos ⟨hv', hfull⟩, if_pos ⟨by omega, hmod⟩]
      by_cases heq : st.prevBuffer = line
      · have hsame := hstate'.resolve_right (by simp [heq])
        have hcond : opt.verbose = false ∧ line.length = 16 ∧ some st.prevBuffer = some line :=
          ⟨hv', hfull, congrArg some heq⟩
        rw [if_pos heq, if_pos hcond,
          ih hlined.2 (Nat.add_pos_left hpos 16) (by dsimp only; omega) (.inr rfl) (.inr (.inl rfl))]
        simp [hsame]
      · rw [if_neg heq, if_neg (by simp [heq]),
          ih hlined.2 (by simp [showLine]; omega) (by simp [showLine]; omega) (.inr rfl)
            (.inr (.inl rfl))]
        simp [showLine]
    · -- a shorter line is the last one
      have hnil : lines = [] := hlined.1.resolve_right hfull
      rw [printLine, if_neg (by simp [hfull]), if_neg (by simp [hfull]), hnil]
      simp [showLine, dumpLines]

theorem printLine_first (hoffset : st.offset = 0) (line : List UInt8) :
    (printLine opt st line).out = st.out ++ lineText opt 0 line ∧
      (printLine opt st line).state = st.state ∧
      (opt.verbose = true ∨ line.length = 16 → opt.verbose = true ∨
        (printLine opt st line).prevBuffer = line) := by
  unfold printLine
  rw [hoffset]
  split
  · exact ⟨by simp [showLine], rfl, fun _ => .inr rfl⟩
  · rename_i hnot
    refine ⟨by simp [showLine, hoffset], rfl, fun h => .inl ?_⟩
    by_contra hv
    exact hnot ⟨by simpa using hv, h.resolve_left hv⟩

/-- All lines of a file, from the first one on. -/
theorem printLines_file (hoffset : st.offset = 0) (hstar : Unstarred opt st bytes) :
    ((linesFrom [] bytes).foldl (printLine opt) st).out =
      st.out ++ dumpLines opt none false 0 (linesFrom [] bytes) := by
  have hlined := @linesFrom_lined bytes [] (by simp)
  have hbytes := @linesFrom_flatten bytes []
  cases hlines : linesFrom [] bytes with
  | nil => exact (append_nil _).symm
  | cons line lines =>
    rw [hlines] at hlined hbytes
    obtain ⟨hout, hstate, hprev⟩ := printLine_first hoffset line
    rw [foldl_cons, dumpLines, if_neg (by simp), ← append_assoc, ← hout]
    rcases hlined.1 with rfl | hfull
    · simp [dumpLines]
    have hnext := @printLine_offset opt st line
    rw [hoffset] at hnext
    rw [← hnext]
    have hprev' := (hprev (.inr hfull)).imp_right fun h => congrArg some h.symm
    refine printLines_out hlined.2 (by omega) (by omega) hprev' ?_
    rcases hstar with hv | hs | hshort | hne
    · exact .inl hv
    · exact .inr (.inl (hstate.trans hs))
    all_goals
      refine (hprev (.inr hfull)).imp_right fun h => .inr fun hhead => ?_
      rw [h] at hhead
      obtain ⟨rest, rfl⟩ : ∃ rest, lines = line :: rest := by
        cases lines with
        | nil => cases hhead
        | cons l rest => exact ⟨rest, by rw [Option.some.inj hhead]⟩
      subst hbytes
    · simp at hshort
      omega
    · simp [hfull] at hne

theorem hd_out (hoffset : st.offset = 0) (h : Ready opt st pieces) :
    (hd opt st pieces).out = st.out ++ dump opt pieces.flatten := by
  have hloop := @readLoop_whole opt pieces st [] (by simp) h.1
  have hend := @printLines_offset opt (linesFrom [] pieces.flatten) st
  rw [linesFrom_flatten, hoffset] at hend
  rw [hd, hloop, nil_append]
  rw [printLines_file hoffset h.2, hend, dump, append_assoc]
  by_cases hnil : pieces.flatten = []
  · simp [hnil]
  · have hpos := length_pos_iff.mpr hnil
    rw [if_neg hnil, if_pos (by simpa using hpos)]
    simp

/-- In every run over files that are read in whole lines, and that begin with
two different lines where the file before left a `*`, each dump is right. -/
theorem dumps_of_run {files : List (List (List UInt8))}
    (h : Run (Guarded (Ready opt) fun st pieces st' => st' = hd opt st pieces) {} files st) :
    st.out = files.flatMap fun pieces => dump opt pieces.flatten := by
  have hrun := Run.invariant_trace (I := fun files (st : HexState) => st.offset = 0 ∧
    st.out = files.flatMap fun pieces => dump opt pieces.flatten) ?_ h ⟨rfl, rfl⟩
  · exact hrun.2
  · rintro files st pieces st' ⟨hoffset, hout⟩ ⟨hready, rfl⟩
    refine ⟨rfl, ?_⟩
    rw [hd_out hoffset hready, hout, flatMap_append, flatMap_singleton]

/-- A file that ends in a `*`, and a file that begins with two different lines. -/
theorem dumps_of_run_two :
    (hd ⟨false, false⟩ (hd ⟨false, false⟩ {} [replicate 48 65]) [range' 66 40 |>.map UInt8.ofNat]).out =
      dump ⟨false, false⟩ (replicate 48 65) ++
        dump ⟨false, false⟩ ((range' 66 40).map UInt8.ofNat) := by
  have hrun : Run (Guarded (Ready ⟨false, false⟩) fun st pieces st' => st' = hd ⟨false, false⟩ st pieces)
      {} [[replicate 48 65], [(range' 66 40).map UInt8.ofNat]] _ :=
    .snoc (.single ⟨⟨by simp [Whole], .inr (.inl rfl)⟩, rfl⟩)
      ⟨⟨by simp [Whole], .inr (.inr (.inr (by decide)))⟩, rfl⟩
  simpa using dumps_of_run hrun

/-- A `*` is missing behind another file, and a read of 20 bytes breaks a line. -/
theorem dumps_depend :
    (hd ⟨false, false⟩ (hd ⟨false, false⟩ {} [replicate 32 65]) [replicate 32 66]).out ≠
        dump ⟨false, false⟩ (replicate 32 65) ++ dump ⟨false, false⟩ (replicate 32 66) ∧
      (hd ⟨false, false⟩ {} [replicate 20 65, replicate 12 65]).out ≠
        dump ⟨false, false⟩ (replicate 32 65) := by
  decide

end Dancy.Hexdump
