import Dancy.Lib.Run
import Dancy.Shell.PromptColumns

/-!
# Runs of the line editor

The keys are characters, moves of the cursor, deletions and changes of the
history. A state of a run has a line of pieces, each a character as far as the
buffer has room for it.
-/

namespace Dancy.Shell.Prompt

open Dancy.Lib List Option
open Dancy.Common (Scalar utf8Encode)

/-! ## Keys -/

inductive Key where
  | char (u : Nat)
  | left
  | right
  | home
  | toEnd
  | delete
  | backspace
  | up (mem : Bool)
  | down (mem : Bool)

/-- A character that is neither the end of the line nor another key. -/
def Key.Typed : Key → Prop
  | .char u => Plain u ∧ u ≠ 9 ∧ u ≠ 10 ∧ u ≠ 27 ∧ u ≠ 0x7F
  | _ => True

def Key.bytes : Key → List UInt8
  | .char u => utf8Encode u
  | .left => [27, 91, 68]
  | .right => [27, 91, 67]
  | .home => [27, 91, 72]
  | .toEnd => [27, 91, 70]
  | .delete => [27, 91, 51, 126]
  | .backspace => [0x7F]
  | .up _ => [27, 91, 65]
  | .down _ => [27, 91, 66]

def Key.mem : Key → Bool
  | .up mem => mem
  | .down mem => mem
  | _ => true

/-- The loop of `prompt_read` with some bytes. -/
def turns (tabCompletion : State → State) (mem : Bool) : List UInt8 → State → Option State
  | [], st => some st
  | c :: cs, st => (turn tabCompletion mem c st).bind (turns tabCompletion mem cs)

/-- What is done: a key, a line feed and then the next line, or the end of the
input at an empty line and then the next one. -/
inductive Input where
  | key (k : Key)
  | enter (mem : Bool) (config : Config)
  | eof (config : Config)

/-- The history behind a line; one that cannot be shown is given up. -/
def leave (mem : Bool) (st : State) : Nat → Option (List UInt8) :=
  match (render st).2 with
  | .failed => (st.setHistory 0 none).history
  | _ => finish mem st

def press (tabCompletion : State → State) (st : State) : Input → Option State
  | .key k => turns tabCompletion k.mem k.bytes st
  | .enter mem config => start config (leave mem st)
  | .eof config =>
    if st.buffer 0 = 0 then start config (st.setHistory 0 none).history else none

def Input.Typed : Input → Prop
  | .key k => k.Typed
  | _ => True

def Step (tabCompletion : State → State) (st : State) (input : Input) (st' : State) : Prop :=
  input.Typed ∧ press tabCompletion st input = some st'

def Fits (st : State) : Input → Prop
  | .key (.char u) => st.size + (utf8Encode u).length + 8 ≤ DSH_PROMPT_BUFFER_SIZE
  | _ => True

variable {tabCompletion : State → State} {mem : Bool} {st st' : State} {l r cs : List UInt8}
  {c lead : UInt8} {u n : Nat} {ls rs : List (List UInt8)} {P : List UInt8 → Prop} {k : Key}

/-! ## A byte -/

theorem turn_shown (hskip : st.skipRender = 0) (h : turn tabCompletion mem c st = some st') :
    promptByte tabCompletion mem c st = some st' := by
  have hrender : (render st).1 = st := by
    rw [render, if_neg (by omega)]
    by_cases hnarrow : st.columnsMax < 8
    · rw [if_pos hnarrow]
    rw [if_neg hnarrow]
    dsimp only
    cases st.line st.trim (st.promptOffset + 1 + st.trim.columnsLeft) with
    | none | some => rfl
  rw [turn] at h
  cases hr : render st with
  | mk st1 rendered =>
    rw [hr] at h hrender
    subst hrender
    cases rendered with
    | skipped | emitted => exact h
    | failed => cases h

theorem turn_skipped (hskip : st.skipRender = n + 1) :
    turn tabCompletion mem c st = promptByte tabCompletion mem c { st with skipRender := n } := by
  rw [turn, render, if_pos (by omega), hskip]
  rfl

theorem ne_of_toNat {c d : UInt8} (h : c.toNat ≠ d.toNat) : c ≠ d := fun heq => h (by rw [heq])

theorem addChar_byte (h : 0x1F < c.toNat) : addChar st c = addByte st c := by
  have hctl : ¬ c ≤ 0x1F := by
    exact not_le.mpr h
  rw [addChar, if_neg hctl]
  by_cases hfull : st.size + 8 ≥ DSH_PROMPT_BUFFER_SIZE
  · rw [if_pos hfull, addByte_full hfull]
  · rw [if_neg hfull]

theorem promptByte_high (hc : 0x80 ≤ c.toNat) (hescape : st.escape = []) :
    promptByte tabCompletion mem c st =
      some (addByte { st with skipRender := skipBehind c st.skipRender } c) := by
  have hne : ∀ d : UInt8, d.toNat < 0x80 → c ≠ d := fun d hd => ne_of_toNat (by omega)
  have h4 := hne 4 (by decide)
  have h10 := hne 10 (by decide)
  have h0 := hne 0 (by decide)
  rw [promptByte, if_neg (fun h => h4 h.1), if_neg (fun h => h.elim h10 h0)]
  rw [if_neg (hne 13 (by decide)), if_neg (by simp [hescape]), if_neg (hne 9 (by decide)),
    if_neg (hne 27 (by decide)), if_neg (hne 0x7F (by decide)), addChar_byte (by omega)]

theorem skipBehind_cont (hc : continues c = true) (n : Nat) : skipBehind c n = n := by
  have hrange := (continues_iff c).mp hc
  obtain ⟨hascii, htwo, hthree, hfour⟩ := masks c
  rw [skipBehind, if_neg (by omega), if_neg (by rw [htwo]; omega),
    if_neg (by omega), if_neg (by rw [hfour]; omega)]

theorem skipBehind_lead (h : Starts lead u n) (m : Nat) : skipBehind lead m = n := by
  obtain ⟨hascii, htwo, hthree, hfour⟩ := masks lead
  rw [skipBehind]
  rcases h with h | h | h | h
  · rw [if_pos (by omega), h.1]
  · rw [if_neg (by omega), if_pos (by rw [htwo]; omega), h.1]
  · rw [if_neg (by rw [hascii]; omega), if_neg (by rw [htwo]; omega),
      if_pos (by rw [hthree]; omega), h.1]
  · rw [if_neg (by rw [hascii]; omega), if_neg (by rw [htwo]; omega),
      if_neg (by rw [hthree]; omega), if_pos (by rw [hfour]; omega), h.1]

def Recorded (P : List UInt8 → Prop) (history : Nat → Option (List UInt8)) : Prop :=
  ∀ i s, history i = some s → ∃ ps : List (List UInt8), s = ps.flatten ∧ (∀ p ∈ ps, P p) ∧
    s.length + 8 ≤ DSH_PROMPT_BUFFER_SIZE

/-- The line is one of pieces, and so are the lines of the history. -/
structure Holds (P : List UInt8 → Prop) (st : State) (ls rs : List (List UInt8)) : Prop where
  line : Line st ls.flatten rs.flatten
  left : ∀ p ∈ ls, P p
  right : ∀ p ∈ rs, P p
  history : Recorded P st.history

theorem Holds.waiting (h : Holds P st ls rs) (escape : List UInt8) (skipRender : Nat) :
    Holds P { st with escape := escape, skipRender := skipRender } ls rs :=
  ⟨⟨h.line.cursor, h.line.length, h.line.bytes, h.line.room, h.line.nonzero, h.line.inside⟩,
    h.left, h.right, h.history⟩

theorem Piece.take {p : List UInt8} (hp : Piece p) (hn : n ≠ 0) : Piece (p.take n) := by
  obtain ⟨c, cs, rfl⟩ := exists_cons_of_ne_nil hp.ne_nil
  obtain ⟨n, rfl⟩ := Nat.exists_eq_succ_of_ne_zero hn
  exact ⟨hp.leads, fun x hx => hp.conts x (mem_of_mem_take hx), cons_ne_nil _ _,
    fun x hx => hp.nonzero x (mem_of_mem_take (by rwa [take_succ_cons]))⟩

theorem nonzero_flatten {ps : List (List UInt8)} (h : ∀ p ∈ ps, Piece p) :
    ∀ c ∈ ps.flatten, c ≠ 0 := by
  intro c hc
  obtain ⟨p, hp, hcp⟩ := mem_flatten.mp hc
  exact (h p hp).nonzero c hcp

/-! ## Characters are typed -/

/-- What the bytes of a character do: `s` is written as far as there is room,
and `n` more are to come. -/
structure Writes (st st' : State) (l r s : List UInt8) (n : Nat) : Prop where
  line : Line st' (l ++ s.take (DSH_PROMPT_BUFFER_SIZE - 8 - (l ++ r).length)) r
  history : st'.history = st.history
  escape : st'.escape = []
  skipRender : st'.skipRender = n

theorem addByte_writes (h : Line st l r) (hc : c ≠ 0) :
    Line (addByte st c) (l ++ [c].take (DSH_PROMPT_BUFFER_SIZE - 8 - (l ++ r).length)) r ∧
      Keeps st (addByte st c) := by
  have hlength := h.length
  by_cases hfull : st.size + 8 ≥ DSH_PROMPT_BUFFER_SIZE
  · rw [addByte_full hfull, show DSH_PROMPT_BUFFER_SIZE - 8 - (l ++ r).length = 0 by omega,
      take_zero, append_nil]
    exact ⟨h, Keeps.refl st⟩
  · rw [take_of_length_le (by rw [length_singleton]; omega)]
    exact addByte_line h hc (by omega)

theorem take_cons (l r s : List UInt8) (c : UInt8) :
    let room := DSH_PROMPT_BUFFER_SIZE - 8 - (l ++ r).length
    l ++ [c].take room ++ s.take (DSH_PROMPT_BUFFER_SIZE - 8 - (l ++ [c].take room ++ r).length) =
        l ++ (c :: s).take room := by
  intro room
  by_cases hfull : room = 0
  · simp only [hfull, take_zero, append_nil]
    rw [show DSH_PROMPT_BUFFER_SIZE - 8 - (l ++ r).length = 0 from hfull, take_zero, append_nil]
  obtain ⟨n, heq⟩ := Nat.exists_eq_succ_of_ne_zero hfull
  have hrest : DSH_PROMPT_BUFFER_SIZE - 8 - (l ++ [c] ++ r).length = n := by
    simp only [room, length_append, length_singleton] at heq ⊢
    omega
  rw [heq, Nat.succ_eq_add_one, take_succ_cons, take_nil, hrest, take_succ_cons,
    append_assoc, singleton_append]

theorem turns_conts (cs : List UInt8) : ∀ {st : State} {l : List UInt8}, Line st l r →
    st.escape = [] → (∀ c ∈ cs, continues c = true) → st.skipRender = cs.length + n →
      ∃ st', turns tabCompletion mem cs st = some st' ∧ Writes st st' l r cs n := by
  induction cs with
  | nil =>
    intro st l h hescape _ hskip
    refine ⟨st, rfl, ?_, rfl, hescape, by simpa using hskip⟩
    rwa [take_nil, append_nil]
  | cons c cs ih =>
    intro st l h hescape hcs hskip
    have hc := hcs c mem_cons_self
    obtain ⟨hline, hkeeps⟩ := @addByte_writes { st with skipRender := cs.length + n } _ _ c
      ⟨h.cursor, h.length, h.bytes, h.room, h.nonzero, h.inside⟩
      (nonzero_of_continues hc)
    obtain ⟨st', hturns, hwrites⟩ := ih hline (hkeeps.escape.trans hescape)
      (fun x hx => hcs x (.tail c hx)) hkeeps.skipRender
    have hbyte : turn tabCompletion mem c st =
        some (addByte { st with skipRender := cs.length + n } c) := by
      rw [turn_skipped (n := cs.length + n) (by rw [hskip, length_cons]; omega),
        @promptByte_high _ _ { st with skipRender := cs.length + n } _
          ((continues_iff c).mp hc).1 hescape, skipBehind_cont hc]
    refine ⟨st', by rw [turns, hbyte, bind_some, hturns], ?_,
      hwrites.history.trans hkeeps.history, hwrites.escape, hwrites.skipRender⟩
    rw [← take_cons l r cs c]
    exact hwrites.line

theorem turns_lead {conts : List UInt8} (h : Line st l r) (hescape : st.escape = [])
    (hskip : st.skipRender = 0) (hstarts : Starts lead u conts.length) (hhigh : 0x80 ≤ u)
    (hconts : ∀ c ∈ conts, continues c = true) {more : List UInt8} (hcs : conts = cs ++ more)
    (hturns : turns tabCompletion mem (lead :: cs) st = some st') :
    Writes st st' l r (lead :: cs) more.length := by
  have hlead : 0x80 ≤ lead.toNat := by
    rcases hstarts with h | h | h | h <;> omega
  rw [turns, bind_eq_some_iff] at hturns
  obtain ⟨st1, hturn, hturns⟩ := hturns
  have hbyte := turn_shown hskip hturn
  rw [promptByte_high hlead hescape, skipBehind_lead hstarts, some.injEq] at hbyte
  subst hbyte
  have hne : lead ≠ 0 := ne_of_toNat (by rw [show (0 : UInt8).toNat = 0 from rfl]; omega)
  obtain ⟨hline, hkeeps⟩ := @addByte_writes { st with skipRender := conts.length } _ _ _
    ⟨h.cursor, h.length, h.bytes, h.room, h.nonzero, h.inside⟩ hne
  obtain ⟨st2, hturns2, hwrites⟩ := (@turns_conts tabCompletion mem _ more.length) cs hline
    (hkeeps.escape.trans hescape)
    (fun x hx => hconts x (hcs ▸ mem_append_left _ hx))
    (hkeeps.skipRender.trans (by rw [hcs, length_append]))
  obtain rfl : st2 = st' := some.inj (hturns2.symm.trans hturns)
  refine ⟨?_, hwrites.history.trans hkeeps.history, hwrites.escape, hwrites.skipRender⟩
  rw [← take_cons l r cs lead]
  exact hwrites.line

theorem promptByte_low (hc : c.toNat < 0x80) (hend : c ≠ 10 ∧ c ≠ 0)
    (hkey : c ≠ 9 ∧ c ≠ 27 ∧ c ≠ 0x7F) (hescape : st.escape = [])
    (h : promptByte tabCompletion mem c st = some st') :
    st' = { st with skipRender := 0 } ∨ st' = addByte { st with skipRender := 0 } c := by
  have hskip : skipBehind c st.skipRender = 0 := by
    rw [skipBehind, if_pos (by rw [(masks c).1]; omega)]
  rw [promptByte] at h
  by_cases hfour : c = 4 ∧ st.buffer 0 = 0
  · rw [if_pos hfour] at h
    cases h
  rw [if_neg hfour, if_neg (fun h => h.elim hend.1 hend.2), hskip] at h
  by_cases hreturn : c = 13
  · rw [if_pos hreturn, ← hescape] at h
    exact Or.inl (some.inj h).symm
  rw [if_neg hreturn, if_neg (by simp [hescape]), if_neg hkey.1, if_neg hkey.2.1,
    if_neg hkey.2.2, some.injEq] at h
  by_cases hctl : c ≤ 0x1F
  · rw [addChar] at h
    by_cases hfull : ({ st with skipRender := 0 } : State).size + 8 ≥ DSH_PROMPT_BUFFER_SIZE
    · rw [if_pos hfull] at h
      exact Or.inl h.symm
    · rw [if_neg hfull, if_pos hctl, if_neg hkey.2.1] at h
      exact Or.inl h.symm
  · rw [addChar_byte (by exact not_le.mp hctl)] at h
    exact Or.inr h.symm

/-- A character, or the first bytes of one: they are written, unless it is a
control character. -/
theorem turns_char (hu : (Key.char u).Typed) (h : Line st l r) (hescape : st.escape = [])
    (hskip : st.skipRender = 0) {more : List UInt8} (hbytes : utf8Encode u = (c :: cs) ++ more)
    (hturns : turns tabCompletion mem (c :: cs) st = some st') :
    ∃ s, (s = c :: cs ∨ s = []) ∧ Writes st st' l r s more.length := by
  obtain ⟨hplain, hkey⟩ := hu
  obtain ⟨lead, conts, heq, hconts, hstarts⟩ := encode_shape hplain.1
  rw [heq, cons_append, cons.injEq] at hbytes
  obtain ⟨rfl, hsplit⟩ := hbytes
  by_cases hhigh : 0x80 ≤ u
  · exact ⟨_, Or.inl rfl, turns_lead h hescape hskip hstarts hhigh hconts hsplit hturns⟩
  -- A character of one byte.
  have hvalue : lead.toNat = u := by
    rcases hstarts with h | h | h | h <;> omega
  have hnil : conts = [] := by
    rcases hstarts with h | h | h | h
    · exact eq_nil_of_length_eq_zero h.1
    · omega
    · omega
    · omega
  rw [hnil] at hsplit
  obtain ⟨rfl, rfl⟩ := append_eq_nil_iff.mp hsplit.symm
  rw [turns, bind_eq_some_iff] at hturns
  obtain ⟨st1, hturn, hturns⟩ := hturns
  obtain rfl : st1 = st' := some.inj hturns
  have hne : ∀ d : UInt8, u ≠ d.toNat → lead ≠ d := fun d hd => ne_of_toNat (by omega)
  have hzero : lead ≠ 0 := hne 0 hplain.2
  rcases promptByte_low (by omega) ⟨hne 10 hkey.2.1, hzero⟩
    ⟨hne 9 hkey.1, hne 27 hkey.2.2.1, hne 0x7F hkey.2.2.2⟩ hescape
    (turn_shown hskip hturn) with rfl | rfl
  · refine ⟨[], Or.inr rfl, ?_, rfl, hescape, rfl⟩
    rw [take_nil, append_nil]
    exact ⟨h.cursor, h.length, h.bytes, h.room, h.nonzero, h.inside⟩
  · obtain ⟨hline, hkeeps⟩ := @addByte_writes { st with skipRender := 0 } _ _ _
      ⟨h.cursor, h.length, h.bytes, h.room, h.nonzero, h.inside⟩ hzero
    exact ⟨_, Or.inl rfl, hline, hkeeps.history, hkeeps.escape.trans hescape, hkeeps.skipRender⟩

theorem Writes.holds {s : List UInt8} (h : Holds P st ls rs)
    (hwrites : Writes st st' ls.flatten rs.flatten s n)
    (hP : ∀ m, m ≠ 0 → s ≠ [] →
      m = DSH_PROMPT_BUFFER_SIZE - 8 - (ls.flatten ++ rs.flatten).length → P (s.take m)) :
    ∃ ls', Holds P st' ls' rs := by
  have hline := hwrites.line
  have hhistory := hwrites.history
  by_cases hnone : s = [] ∨ DSH_PROMPT_BUFFER_SIZE - 8 - (ls.flatten ++ rs.flatten).length = 0
  · refine ⟨ls, ?_, h.left, h.right, hhistory ▸ h.history⟩
    rcases hnone with rfl | hfull
    · rwa [take_nil, append_nil] at hline
    · rwa [hfull, take_zero, append_nil] at hline
  obtain ⟨hs, hfull⟩ := not_or.mp hnone
  refine ⟨ls ++ [s.take (DSH_PROMPT_BUFFER_SIZE - 8 - (ls.flatten ++ rs.flatten).length)], ?_,
    fun p hp => ?_, h.right, hhistory ▸ h.history⟩
  · rwa [flatten_append, flatten_singleton]
  · rcases mem_append.mp hp with hp | hp
    · exact h.left p hp
    · rw [mem_singleton.mp hp]
      exact hP _ hfull hs rfl

/-! ## Deletions and moves -/

theorem Holds.leads (hpiece : ∀ p, P p → Piece p) (h : Holds P st ls rs) :
    Leads rs.flatten :=
  leads_flatten fun p hp => hpiece p (h.right p hp)

theorem delChar_holds (hpiece : ∀ p, P p → Piece p) (h : Holds P st ls rs) :
    Holds P (delChar st) ls rs.tail ∧ Keeps st (delChar st) := by
  cases rs with
  | nil =>
    rw [delChar_end h.line]
    exact ⟨h, Keeps.refl st⟩
  | cons p rs =>
    have hright : ∀ q ∈ rs, P q := fun q hq => h.right q (.tail p hq)
    obtain ⟨hline, hkeeps⟩ := delChar_line (hpiece p (h.right p mem_cons_self))
      (leads_flatten fun q hq => hpiece q (hright q hq)) h.line
    exact ⟨⟨hline, h.left, hright, hkeeps.history ▸ h.history⟩, hkeeps⟩

theorem Holds.move (h : Holds P st ls rs) {ls' rs' : List (List UInt8)}
    (heq : ls ++ rs = ls' ++ rs') :
    Holds P { st with cursor := ls'.flatten.length } ls' rs' where
  line := h.line.move (by simp [← flatten_append, heq])
  left p hp := (mem_append.mp (heq ▸ mem_append_left rs' hp)).elim (h.left p) (h.right p)
  right p hp := (mem_append.mp (heq ▸ mem_append_right ls' hp)).elim (h.left p) (h.right p)
  history := h.history

theorem Keeps.ofCursor (h : Keeps { st with cursor := n } st') : Keeps st st' :=
  ⟨h.wsCol, h.prompt, h.promptOffset, h.escape, h.skipRender, h.history, h.historyState⟩

section

variable (hpiece : ∀ p, P p → Piece p)
include hpiece

theorem moveLeft_holds (columns : Nat) : ∀ {st : State}
    {ls rs : List (List UInt8)}, Holds P st ls rs →
      (∃ ls' rs', Holds P (moveLeft columns st).1 ls' rs') ∧ Keeps st (moveLeft columns st).1 := by
  induction columns with
  | zero => exact fun {st ls rs} h => ⟨⟨ls, rs, h⟩, Keeps.refl st⟩
  | succ columns ih =>
    intro st ls rs h
    rcases eq_nil_or_concat ls with rfl | ⟨ls, p, rfl⟩
    · rw [moveLeft_zero _ h.line]
      exact ⟨⟨[], rs, h⟩, Keeps.refl st⟩
    have hp : P p := h.left p (by simp)
    have hline := h.line
    rw [concat_eq_append, flatten_append, flatten_singleton] at hline
    rw [moveLeft_piece (hpiece p hp) hline]
    obtain ⟨hheld, hkeeps⟩ := ih (@Holds.move _ _ _ _ h ls (p :: rs) (by simp))
    exact ⟨hheld, hkeeps.ofCursor⟩

theorem moveRight_holds (columns : Nat) : ∀ {st : State}
    {ls rs : List (List UInt8)}, Holds P st ls rs →
      (∃ ls' rs', Holds P (moveRight columns st) ls' rs') ∧ Keeps st (moveRight columns st) := by
  induction columns with
  | zero => exact fun {st ls rs} h => ⟨⟨ls, rs, h⟩, Keeps.refl st⟩
  | succ columns ih =>
    intro st ls rs h
    cases rs with
    | nil =>
      rw [moveRight_end _ h.line]
      exact ⟨⟨ls, [], h⟩, Keeps.refl st⟩
    | cons p rs =>
      have hright : ∀ q ∈ rs, P q := fun q hq => h.right q (.tail p hq)
      have hmove := @Holds.move _ _ _ _ h (ls ++ [p]) rs (by simp)
      rw [flatten_append, flatten_singleton] at hmove
      rw [moveRight_piece (hpiece p (h.right p mem_cons_self))
        (leads_flatten fun q hq => hpiece q (hright q hq)) h.line]
      obtain ⟨hheld, hkeeps⟩ := ih hmove
      exact ⟨hheld, hkeeps.ofCursor⟩

theorem backspace_holds (h : Holds P st ls rs) :
    ∃ ls' rs', Holds P (if (moveLeft 1 st).2 = 1 then delChar (moveLeft 1 st).1
      else (moveLeft 1 st).1) ls' rs' ∧
        Keeps st (if (moveLeft 1 st).2 = 1 then delChar (moveLeft 1 st).1
          else (moveLeft 1 st).1) := by
  obtain ⟨⟨ls', rs', hheld⟩, hkeeps⟩ := moveLeft_holds hpiece 1 h
  by_cases hmoved : (moveLeft 1 st).2 = 1
  · rw [if_pos hmoved]
    obtain ⟨hdel, hkeeps'⟩ := delChar_holds hpiece hheld
    exact ⟨ls', rs'.tail, hdel, hkeeps.trans hkeeps'⟩
  · rw [if_neg hmoved]
    exact ⟨ls', rs', hheld, hkeeps⟩

end

theorem Holds.setHistory {i : Nat} {s : Option (List UInt8)} (h : Holds P st ls rs)
    (hs : s = none ∨ s = some (ls.flatten ++ rs.flatten)) :
    Recorded P (st.setHistory i s).history := by
  intro j s' hj
  by_cases hi : j = i
  · have heq : s = some s' := by
      rw [State.setHistory] at hj
      dsimp only at hj
      rwa [if_pos hi] at hj
    rcases hs with hs | hs
    · rw [hs] at heq
      cases heq
    · rw [hs, some.injEq] at heq
      subst heq
      refine ⟨ls ++ rs, flatten_append.symm, fun p hp => ?_, h.line.room⟩
      exact (mem_append.mp hp).elim (h.left p) (h.right p)
  · rw [State.setHistory] at hj
    dsimp only at hj
    rw [if_neg hi] at hj
    exact h.history j s' hj

theorem changeLine_holds (hpiece : ∀ p, P p → Piece p) (h : Holds P st ls rs) (j : Nat) :
    (∃ ls' rs', Holds P (changeLine mem j st) ls' rs') ∧
      (changeLine mem j st).skipRender = st.skipRender := by
  cases mem with
  | false =>
    rw [changeLine_false]
    exact ⟨⟨ls, rs, h⟩, rfl⟩
  | true =>
    cases hj : st.history j with
    | none =>
      rw [changeLine_none hj]
      exact ⟨⟨ls, rs, h⟩, rfl⟩
    | some s =>
      obtain ⟨ps, rfl, hps, hroom⟩ := h.history j s hj
      obtain ⟨hline, hchanges⟩ := changeLine_line h.line hj
        (nonzero_flatten fun p hp => hpiece p (hps p hp)) hroom
      refine ⟨⟨ps, [], hline, hps, by simp, ?_⟩, hchanges.skipRender⟩
      rw [hchanges.history]
      exact h.setHistory (Or.inr rfl)

/-! ## Keys that are not characters -/

/-- An escape sequence of which `p` was read. -/
def waiting (st : State) (p : List UInt8) : State := { st with escape := p, skipRender := 0 }

/-- Nothing of a character is to come, and the key is read when `more` is
empty. -/
structure Quiet (P : List UInt8 → Prop) (st : State) (more : List UInt8) : Prop where
  held : ∃ ls rs, Holds P st ls rs
  skipRender : st.skipRender = 0
  escape : more = [] → st.escape = []

/-- How the bytes `rest` of a key are read behind `p`. -/
def Follows (tabCompletion : State → State) (mem : Bool) (P : List UInt8 → Prop) (st : State)
    (p rest : List UInt8) : Prop :=
  ∀ bs more st', rest = bs ++ more → turns tabCompletion mem bs (waiting st p) = some st' →
    Quiet P st' more

section

variable (h : Holds P st ls rs)
include h

theorem follows_byte {p rest : List UInt8}
    (hnext : ∀ bs more st1 st', rest = bs ++ more → promptByte tabCompletion mem c (waiting st p) = some st1 → turns tabCompletion mem bs st1 = some st' → Quiet P st' more) :
    Follows tabCompletion mem P st p (c :: rest) := by
  intro bs more st' hbytes hturns
  cases bs with
  | nil =>
    obtain rfl : waiting st p = st' := some.inj hturns
    refine ⟨⟨ls, rs, h.waiting p 0⟩, rfl, fun hmore => ?_⟩
    rw [nil_append, hmore] at hbytes
    cases hbytes
  | cons d bs =>
    rw [cons_append, cons.injEq] at hbytes
    obtain ⟨rfl, hrest⟩ := hbytes
    rw [turns, bind_eq_some_iff] at hturns
    obtain ⟨st1, hturn, hturns⟩ := hturns
    exact hnext bs more st1 st' hrest (turn_shown rfl hturn) hturns

theorem follows_cons {p p' rest : List UInt8}
    (hbyte : promptByte tabCompletion mem c (waiting st p) = some (waiting st p'))
    (hnext : Follows tabCompletion mem P st p' rest) :
    Follows tabCompletion mem P st p (c :: rest) := by
  refine follows_byte h fun bs more st1 st' hrest hst1 hturns => ?_
  obtain rfl : waiting st p' = st1 := some.inj (hbyte.symm.trans hst1)
  exact hnext bs more st' hrest hturns

theorem follows_last {p : List UInt8}
    (hbyte : promptByte tabCompletion mem c (waiting st p) = some st') (hdone : Quiet P st' []) :
    Follows tabCompletion mem P st p [c] := by
  refine follows_byte h fun bs more st1 st2 hrest hst1 hturns => ?_
  obtain rfl : st' = st1 := some.inj (hbyte.symm.trans hst1)
  obtain ⟨rfl, rfl⟩ := append_eq_nil_iff.mp hrest.symm
  obtain rfl : st' = st2 := some.inj hturns
  exact hdone

end

/-- An escape sequence does something that keeps the line one of pieces. -/
theorem quiet_done (h : (∃ ls rs, Holds P st ls rs) ∧ st.skipRender = 0) :
    Quiet P { st with escape := [] } [] := by
  obtain ⟨⟨ls, rs, h⟩, hskip⟩ := h
  exact ⟨⟨ls, rs, ⟨⟨h.line.cursor, h.line.length, h.line.bytes, h.line.room, h.line.nonzero,
    h.line.inside⟩, h.left, h.right, h.history⟩⟩, hskip, fun _ => rfl⟩

theorem follows_escape (h : Holds P st ls rs) {st1 : State}
    (hbyte : promptByte tabCompletion mem c (waiting st [27, 91]) =
      some { st1 with escape := [] })
    (hdone : (∃ ls rs, Holds P st1 ls rs) ∧ st1.skipRender = 0) :
    Follows tabCompletion mem P st [] [27, 91, c] :=
  @follows_cons _ _ _ _ _ _ _ h _ [27] _ rfl
    (@follows_cons _ _ _ _ _ _ _ h _ [27, 91] _ rfl (follows_last h hbyte (quiet_done hdone)))

theorem moved (h : (∃ ls rs, Holds P st' ls rs) ∧ Keeps (waiting st cs) st') :
    (∃ ls rs, Holds P st' ls rs) ∧ st'.skipRender = 0 :=
  ⟨h.1, h.2.skipRender⟩

theorem history_done (hpiece : ∀ p, P p → Piece p) (h : Holds P st ls rs) (mem : Bool) (j : Nat) :
    (∃ ls rs, Holds P (changeLine mem j (waiting st cs)) ls rs) ∧
      (changeLine mem j (waiting st cs)).skipRender = 0 :=
  changeLine_holds hpiece (h.waiting cs 0) j

theorem follows_key (hpiece : ∀ p, P p → Piece p) (h : Holds P st ls rs)
    (hk : ∀ u, k ≠ .char u) : Follows tabCompletion k.mem P st [] k.bytes := by
  have hwait : ∀ p, Holds P (waiting st p) ls rs := fun p => h.waiting p 0
  cases k with
  | char u => exact absurd rfl (hk u)
  | left =>
    exact @follows_escape _ _ _ _ _ _ _ h ((moveLeft 1 (waiting st [27, 91])).1) rfl
      (moved (moveLeft_holds hpiece 1 (hwait _)))
  | right =>
    exact @follows_escape _ _ _ _ _ _ _ h (moveRight 1 (waiting st [27, 91])) rfl
      (moved (moveRight_holds hpiece 1 (hwait _)))
  | home =>
    exact @follows_escape _ _ _ _ _ _ _ h ((moveLeft (2 ^ 31) (waiting st [27, 91])).1)
      (by rfl)
      (moved (moveLeft_holds hpiece _ (hwait _)))
  | toEnd =>
    exact @follows_escape _ _ _ _ _ _ _ h (moveRight (2 ^ 31 - 1) (waiting st [27, 91]))
      (by simp [promptByte, waiting, escapeByte, escapeSequence, bytesOf, skipBehind])
      (moved (moveRight_holds hpiece _ (hwait _)))
  | delete =>
    obtain ⟨hheld, hkeeps⟩ := delChar_holds hpiece (hwait [27, 91, 51])
    exact @follows_cons _ _ _ _ _ _ _ h _ [27] _ rfl
      (@follows_cons _ _ _ _ _ _ _ h _ [27, 91] _ rfl
      (@follows_cons _ _ _ _ _ _ _ h _ [27, 91, 51] _ rfl
        (@follows_last _ _ _ { delChar (waiting st [27, 91, 51]) with escape := [] } _ _ _ _ h _ rfl
        (quiet_done (moved ⟨⟨_, _, hheld⟩, hkeeps⟩)))))
  | backspace =>
    obtain ⟨ls', rs', hheld, hkeeps⟩ := backspace_holds hpiece (hwait [])
    exact follows_last h rfl ⟨⟨ls', rs', hheld⟩, hkeeps.skipRender, fun _ => hkeeps.escape⟩
  | up mem =>
    refine @follows_escape _ _ _ _ _ _ _ h (historyUp mem (waiting st [27, 91])) rfl ?_
    unfold historyUp
    by_cases hlast : (waiting st [27, 91]).historyState + 1 < histories
    · rw [if_pos hlast]
      exact history_done hpiece h mem _
    · rw [if_neg hlast]
      exact ⟨⟨ls, rs, hwait _⟩, rfl⟩
  | down mem =>
    refine @follows_escape _ _ _ _ _ _ _ h (historyDown mem (waiting st [27, 91])) rfl ?_
    unfold historyDown
    by_cases hfirst : (waiting st [27, 91]).historyState > 0
    · rw [if_pos hfirst]
      exact history_done hpiece h mem _
    · rw [if_neg hfirst]
      exact ⟨⟨ls, rs, hwait _⟩, rfl⟩

def Rests (P : List UInt8 → Prop) (st : State) : Prop := Quiet P st []

theorem start_rests {config : Config} {history : Nat → Option (List UInt8)}
    (h : Recorded P history) (hstart : start config history = some st) : Rests P st := by
  rw [start] at hstart
  by_cases hnarrow : (config.promptOffset : Int) ≥ config.wsCol
  · rw [if_pos hnarrow] at hstart
    cases hstart
  rw [if_neg hnarrow, some.injEq] at hstart
  subst hstart
  refine ⟨⟨[], [], ⟨rfl, rfl, fun k hk => ?_, by decide, by simp, rfl⟩, by simp, by simp, h⟩,
    rfl, fun _ => rfl⟩
  obtain rfl : k = 0 := by simpa using hk
  rfl

theorem finish_recorded (h : Holds P st ls rs) : Recorded P (finish mem st) := by
  have hcleared : Recorded P (st.setHistory 0 none).history := h.setHistory (Or.inl rfl)
  have hline : ∃ ps : List (List UInt8), st.text 0 = ps.flatten ∧ (∀ p ∈ ps, P p) ∧
      (st.text 0).length + 8 ≤ DSH_PROMPT_BUFFER_SIZE := by
    rw [h.line.text_all]
    refine ⟨ls ++ rs, flatten_append.symm, fun p hp => ?_, h.line.room⟩
    exact (mem_append.mp hp).elim (h.left p) (h.right p)
  unfold finish
  by_cases hblank : (st.text 0).all (· = 32) = true
  · rwa [if_pos hblank]
  rw [if_neg hblank]
  by_cases hsame : (st.setHistory 0 none).history 1 = some (st.text 0)
  · rw [if_pos hsame]
    exact hcleared
  rw [if_neg hsame]
  by_cases hmem : mem = false
  · rwa [if_pos hmem]
  rw [if_neg hmem]
  intro i s hi
  dsimp only at hi
  by_cases hfirst : i = 1
  · rw [if_pos hfirst, some.injEq] at hi
    exact hi ▸ hline
  rw [if_neg hfirst] at hi
  by_cases hmoved : 1 < i ∧ i < histories
  · rw [if_pos hmoved] at hi
    exact hcleared _ s hi
  · rw [if_neg hmoved] at hi
    exact hcleared _ s hi

theorem leave_recorded (h : Holds P st ls rs) : Recorded P (leave mem st) := by
  rw [leave]
  cases (render st).2 with
  | skipped | emitted => exact finish_recorded h
  | failed => exact h.setHistory (Or.inl rfl)

variable {tabCompletion : State → State} {mem : Bool} {st st' : State} {bs more : List UInt8}
  {ls rs : List (List UInt8)} {P : List UInt8 → Prop} {k : Key} {input : Input} {u : Nat}

/-- The line is terminated in the buffer, at its recorded length, and the
cursor does not stand inside of a character. -/
structure Sound (st : State) : Prop where
  size : st.size < DSH_PROMPT_BUFFER_SIZE
  terminated : st.buffer st.size = 0
  nonzero : ∀ k < st.size, st.buffer k ≠ 0
  inside : st.overflow = false
  cursor : st.cursor ≤ st.size
  boundary : continues (st.buffer st.cursor) = false

/-- The line is one of whole characters, and when none of them has four bytes,
the column is the one behind those that are shown left of the cursor. -/
def Shows (st : State) : Prop :=
  ∀ column line, (render st).2 = .emitted column line → ∃ us vs : List Nat,
    (∀ u ∈ us ++ vs, Plain u) ∧ st.text 0 = encode (us ++ vs) ∧ st.cursor = (encode us).length ∧
        ((∀ u ∈ us ++ vs, Narrow u) →
          column = st.promptOffset + 1 + shownLeft st.columnsMax us.length vs.length ∧
            line = window st us vs)

def Whole (p : List UInt8) : Prop := ∃ u, Plain u ∧ p = utf8Encode u

theorem whole_piece (p : List UInt8) (h : Whole p) : Piece p := by
  obtain ⟨u, hu, rfl⟩ := h
  exact piece_encode hu

theorem Holds.sound (hpiece : ∀ p, P p → Piece p) (h : Holds P st ls rs) : Sound st := by
  have hlength := h.line.length
  have hcursor := h.line.cursor
  have hroom := h.line.room
  refine ⟨by omega, ?_, fun k hk => ?_, h.line.inside, ?_, ?_⟩
  · rw [h.line.bytes _ (by omega), getD_eq_default _ _ (by omega)]
  · rw [h.line.bytes _ (by omega), getD_eq_getElem _ _ (by omega)]
    exact h.line.nonzero _ (getElem_mem _)
  · rw [length_append] at hlength
    omega
  · rw [h.line.buffer_cursor]
    exact h.leads hpiece

theorem encode_whole (ls : List (List UInt8)) : (∀ p ∈ ls, Whole p) →
    ∃ us : List Nat, (∀ u ∈ us, Plain u) ∧ ls.flatten = encode us := by
  induction ls with
  | nil => exact fun _ => ⟨[], by simp, rfl⟩
  | cons p ls ih =>
    intro h
    obtain ⟨u, hu, rfl⟩ := h p mem_cons_self
    obtain ⟨us, hus, heq⟩ := ih fun q hq => h q (.tail _ hq)
    refine ⟨u :: us, forall_mem_cons.mpr ⟨hu, hus⟩, ?_⟩
    simp [heq, encode_cons]

theorem Holds.shows (h : Holds Whole st ls rs) : Shows st := by
  obtain ⟨us, hus, hl⟩ := encode_whole ls h.left
  obtain ⟨vs, hvs, hr⟩ := encode_whole rs h.right
  have hline := h.line
  rw [hl, hr] at hline
  intro column line hrender
  refine ⟨us, vs, fun u hu => (mem_append.mp hu).elim (hus u) (hvs u), ?_, hline.cursor,
    fun hnarrow => ?_⟩
  · rw [hline.text_all, encode_append]
  · exact render_encode hline (fun u hu => hnarrow u (mem_append_left _ hu))
      (fun v hv => hnarrow v (mem_append_right _ hv)) hrender

theorem shows_skipped (h : st.skipRender ≠ 0) : Shows st := by
  intro column line hrender
  rw [render, if_pos (by omega)] at hrender
  exact Rendered.noConfusion hrender

theorem turns_key (hpiece : ∀ p, P p → Piece p) (hk : k.Typed) (h : Rests P st)
    (hbytes : k.bytes = bs ++ more) (hturns : turns tabCompletion k.mem bs st = some st')
    (hP : ∀ u, k = .char u → ∀ m, m ≠ 0 → m = DSH_PROMPT_BUFFER_SIZE - 8 - st.size → bs ≠ [] →
      P (bs.take m)) :
    (∃ ls rs, Holds P st' ls rs) ∧ (more = [] → Rests P st') ∧
      ((∀ u, k ≠ .char u) ∨ bs = [] ∨ st'.skipRender = more.length) := by
  obtain ⟨ls, rs, hheld⟩ := h.held
  have hescape := h.escape rfl
  have hwaiting : waiting st [] = st := by
    rw [waiting, ← hescape, ← h.skipRender]
  by_cases hchar : ∃ u, k = .char u
  · obtain ⟨u, rfl⟩ := hchar
    cases bs with
    | nil =>
      obtain rfl : st = st' := some.inj hturns
      exact ⟨⟨ls, rs, hheld⟩, fun _ => h, Or.inr (Or.inl rfl)⟩
    | cons c cs =>
      obtain ⟨s, hs, hwrites⟩ := turns_char hk hheld.line hescape h.skipRender hbytes hturns
      have hholds := hwrites.holds hheld fun m hm hne heq => by
        rcases hs with rfl | rfl
        · exact hP u rfl m hm (by rw [heq, hheld.line.length]) (cons_ne_nil _ _)
        · exact absurd rfl hne
      obtain ⟨ls', hheld'⟩ := hholds
      refine ⟨⟨ls', rs, hheld'⟩, fun hmore => ⟨⟨ls', rs, hheld'⟩, ?_, fun _ => hwrites.escape⟩,
        Or.inr (Or.inr hwrites.skipRender)⟩
      rw [hwrites.skipRender, hmore]
      rfl
  · have hother : ∀ u, k ≠ .char u := fun u hu => hchar ⟨u, hu⟩
    rw [← hwaiting] at hturns
    have hquiet := follows_key hpiece hheld hother bs more st' hbytes hturns
    refine ⟨hquiet.held, fun hmore => ?_, Or.inl hother⟩
    rwa [hmore] at hquiet

theorem step_rests (hpiece : ∀ p, P p → Piece p) (h : Rests P st)
    (hP : ∀ u, input = .key (.char u) → ∀ m, m ≠ 0 → m = DSH_PROMPT_BUFFER_SIZE - 8 - st.size →
      Plain u → P ((utf8Encode u).take m))
    (hstep : Step tabCompletion st input st') : Rests P st' := by
  obtain ⟨ls, rs, hheld⟩ := h.held
  obtain ⟨htyped, hpress⟩ := hstep
  cases input with
  | key k =>
    refine (@turns_key _ _ _ _ [] _ _ hpiece htyped h (append_nil _).symm hpress ?_).2.1 rfl
    rintro u rfl m hm heq -
    exact hP u rfl m hm heq htyped.1
  | enter mem config => exact start_rests (leave_recorded hheld) hpress
  | eof config =>
    rw [press] at hpress
    by_cases hempty : st.buffer 0 = 0
    · rw [if_pos hempty] at hpress
      exact start_rests (hheld.setHistory (Or.inl rfl)) hpress
    · rw [if_neg hempty] at hpress
      cases hpress

theorem take_fits (hfits : Fits st (.key (.char u))) :
    (utf8Encode u).take (DSH_PROMPT_BUFFER_SIZE - 8 - st.size) = utf8Encode u := by
  have hroom : st.size + (utf8Encode u).length + 8 ≤ DSH_PROMPT_BUFFER_SIZE := hfits
  exact take_of_length_le (by omega)

variable {config : Config} {inputs : List Input} {st0 : State}

theorem run_rests (h0 : start config (fun _ => none) = some st0)
    (hrun : Run (Step tabCompletion) st0 inputs st) : Rests Piece st := by
  have hstart : Rests Piece st0 := start_rests (fun i s hi => absurd hi (by simp)) h0
  exact hrun.invariant (fun s a s' hs hstep => step_rests (fun p hp => hp) hs
    (fun u _ m hm _ hu => (piece_encode hu).take hm) hstep) hstart

theorem run_whole (h0 : start config (fun _ => none) = some st0)
    (hrun : Run (Guarded Fits (Step tabCompletion)) st0 inputs st) : Rests Whole st := by
  have hstart : Rests Whole st0 := start_rests (fun i s hi => absurd hi (by simp)) h0
  refine hrun.invariant (fun s a s' hs hstep => ?_) hstart
  refine step_rests whole_piece hs (fun u ha m _ hm hu => ?_) hstep.2
  rw [hm, take_fits (ha ▸ hstep.1)]
  exact ⟨u, hu, rfl⟩

theorem turns_pieces (hk : k.Typed) (h : Rests Piece st) (hbytes : k.bytes = bs ++ more)
    (hturns : turns tabCompletion k.mem bs st = some st') :
    (∃ ls rs, Holds Piece st' ls rs) ∧
      ((∀ u, k ≠ .char u) ∨ bs = [] ∨ st'.skipRender = more.length) := by
  have hkey := turns_key (fun p hp => hp) hk h hbytes hturns <| by
    rintro u rfl m hm - hne
    have hprefix : bs = (utf8Encode u).take bs.length := by
      have hu : utf8Encode u = bs ++ more := hbytes
      rw [hu, take_left]
    rw [ hprefix]
    exact ((piece_encode hk.1).take (by simpa using hne)).take hm
  exact ⟨hkey.1, hkey.2.2⟩

/-- In every state of a run, also between the bytes of a key, the buffer and the
cursor are sound; and when there was room for every character, the column is
that of the characters shown left of the cursor. -/
theorem promptRead_keeps (h0 : start config (fun _ => none) = some st0) (hk : k.Typed)
    (hbytes : k.bytes = bs ++ more) (hturns : turns tabCompletion k.mem bs st = some st') :
    (Run (Step tabCompletion) st0 inputs st → Sound st') ∧
      (Run (Guarded Fits (Step tabCompletion)) st0 inputs st → Fits st (.key k) → Shows st') := by
  constructor
  · intro hrun
    obtain ⟨⟨ls, rs, hheld⟩, -⟩ := turns_pieces hk (run_rests h0 hrun) hbytes hturns
    exact hheld.sound fun p hp => hp
  intro hrun hfits
  have hrests := run_whole h0 hrun
  have hpieces := run_rests h0 (hrun.mono fun s a s' h => h.2)
  -- Between the bytes of a character nothing is rendered.
  by_cases hwaits : st'.skipRender ≠ 0
  · exact shows_skipped hwaits
  have hkey := turns_key whole_piece hk hrests hbytes hturns <| by
    rintro u rfl m - hm hne
    have hu : utf8Encode u = bs ++ more := hbytes
    rcases (turns_pieces hk hpieces hbytes hturns).2 with hother | hnil | hskip
    · exact absurd rfl (hother u)
    · exact absurd hnil hne
    have hmore : more = [] := by
      rw [← length_eq_zero_iff]
      omega
    rw [hmore, append_nil] at hu
    rw [hm, ← hu, take_fits hfits]
    exact ⟨u, hk.1, rfl⟩
  obtain ⟨⟨ls, rs, hheld⟩, -⟩ := hkey
  exact hheld.shows

theorem run_of_presses (inputs : List Input) : (∀ input ∈ inputs, input.Typed) →
    inputs.foldlM (press tabCompletion) st0 = some st →
      Run (Step tabCompletion) st0 inputs st := by
  induction inputs using reverseRecOn generalizing st with
  | nil =>
    intro _ h
    obtain rfl : st0 = st := some.inj h
    exact Run.nil st0
  | append_singleton inputs input ih =>
    intro htyped h
    rw [foldlM_append, bind_eq_bind, bind_eq_some_iff] at h
    obtain ⟨st1, hst1, hpress⟩ := h
    refine Run.snoc (ih (fun i hi => htyped i (mem_append_left _ hi)) hst1)
      ⟨htyped input (by simp), ?_⟩
    simpa using hpress

def narrow : Config := ⟨10, [36], 1, fun _ => 0⟩

def view (st : State) : List UInt8 × Nat × Int × Option Int :=
  (st.text 0, st.cursor, st.promptOffset, match (render st).2 with
    | .emitted column _ => some column
    | _ => none)

theorem view_narrow :
    ((start narrow fun _ => none).bind fun st =>
      (replicate 9 (Input.key (.char 97))).foldlM (press id) st).map view =
      some (replicate 9 97, 9, 1, some 10) := by decide +kernel

/-- Nine characters do not fit in the window, and the line is scrolled. -/
theorem column_scrolls : ∃ st0 st, start narrow (fun _ => none) = some st0 ∧
    Run (Step id) st0 (replicate 9 (.key (.char 97))) st ∧
      st.text 0 = encode (replicate 9 97) ∧ st.cursor = (encode (replicate 9 97)).length ∧
        ∃ line, (render st).2 = .emitted 10 line ∧ (10 : Int) ≠ st.promptOffset + 1 + 9 := by
  have hview := view_narrow
  rw [map_eq_some_iff] at hview
  obtain ⟨st, hst, hseen⟩ := hview
  rw [bind_eq_some_iff] at hst
  obtain ⟨st0, h0, hpresses⟩ := hst
  simp only [view, Prod.mk.injEq] at hseen
  obtain ⟨htext, hcursor, hoffset, hcolumn⟩ := hseen
  refine ⟨st0, st, h0, run_of_presses _ (fun input h => ?_) hpresses, htext, hcursor, ?_⟩
  · rw [eq_of_mem_replicate h]
    exact ⟨⟨by decide, by decide⟩, by decide⟩
  cases hrender : (render st).2 with
  | skipped =>
    rw [hrender] at hcolumn
    exact absurd hcolumn (by simp)
  | failed =>
    rw [hrender] at hcolumn
    exact absurd hcolumn (by simp)
  | emitted column line =>
    rw [hrender] at hcolumn
    obtain rfl : column = 10 := some.inj hcolumn
    exact ⟨line, rfl, by rw [hoffset]; decide⟩

/-- A letter is typed, and the cursor goes back over it. -/
theorem promptRead_keeps_left : ∃ st0 st st', start narrow (fun _ => none) = some st0 ∧
    press id st0 (.key (.char 97)) = some st ∧ turns id true (Key.bytes .left) st = some st' ∧
      Sound st' ∧ Shows st' := by
  have hsome : ((start narrow fun _ => none).bind fun st0 =>
      (press id st0 (.key (.char 97))).bind (turns id true (Key.bytes .left))).isSome = true := by
    decide +kernel
  obtain ⟨st', hst'⟩ := isSome_iff_exists.mp hsome
  obtain ⟨st0, h0, hrest⟩ := bind_eq_some_iff.mp hst'
  obtain ⟨st, hpress, hturns⟩ := bind_eq_some_iff.mp hrest
  have htyped : (Input.key (.char 97)).Typed := ⟨⟨by decide, by decide⟩, by decide⟩
  have hsize : st0.size = 0 := by
    have hstart : (start narrow fun _ => none).map State.size = some 0 := rfl
    rw [h0] at hstart
    exact some.inj hstart
  have hfits : Fits st0 (.key (.char 97)) := by
    change st0.size + 1 + 8 ≤ DSH_PROMPT_BUFFER_SIZE
    rw [hsize]
    decide
  have hkeeps := @promptRead_keeps _ _ _ _ [] .left _ [.key (.char 97)] _ h0 trivial
    (append_nil _).symm hturns
  exact ⟨st0, st, st', h0, hpress, hturns, hkeeps.1 (Run.single ⟨htyped, hpress⟩),
    hkeeps.2 (Run.single ⟨hfits, htyped, hpress⟩) trivial⟩

end Dancy.Shell.Prompt
