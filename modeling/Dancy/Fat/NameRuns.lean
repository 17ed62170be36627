import Dancy.Fat.Name
import Mathlib.Data.Vector.Defs

/-!
# What `fill_path_buffer` accepts

A path is accepted if its names, after `.` and `..` have been followed, are
8.3 names, and the entries are these names.
-/

namespace Dancy.Fat

open Dancy.Lib.Pieces
open List hiding Vector

/-- A name and its extension, as they are stored in a directory. -/
structure ShortName where
  (base ext : List UInt8)
  base_pos : base ≠ []
  base_length : base.length ≤ 8
  ext_length : ext.length ≤ 3
  not_periods : ∃ c ∈ base, c ≠ 0x2E
  not_reserved : ext = [] → base ∉ reservedNames

def ShortName.bytes (n : ShortName) : List UInt8 := n.base.rightpad 8 0x20 ++ n.ext.rightpad 3 0x20

/-- The text is the name alone, with no period after its first character, or the
name, a period, and the extension, which has no period in it. -/
def ShortName.Spells (n : ShortName) (w : List UInt8) : Prop :=
  w = n.base ∧ n.ext = [] ∧ 0x2E ∉ w.tail ∨ w = n.base ++ 0x2E :: n.ext ∧ 0x2E ∉ n.ext

/-! ## Characters and entries -/

def components (name : List UInt8) : List (List UInt8) := resolve 0x2F 0x2E [] (name.map upper)

def closedNames (name : List UInt8) : List (List UInt8) := closed 0x2F 0x2E [] (name.map upper)

def openName (name : List UInt8) : List UInt8 := lastPiece 0x2F (name.map upper)

def allowed (c : UInt8) : Bool := 0x20 < c && c ≤ 0x7E && !forbidden (upper c)

/-- What is asked of a character after the text `p`: it is an allowed one, there
are less than 255 names, and the last name has less than twelve characters. -/
def Fits (p : List UInt8) (c : UInt8) : Prop :=
  allowed c ∧ (closedNames p).length < 255 ∧ (upper c ≠ 0x2F → (openName p).length < 12)

/-- An entry with the name `w`. -/
structure HoldsName (e : FatName) (w : List UInt8) (dir : Bool) : Prop where
  length : e.length = w.length
  short : w.length ≤ 12
  char : ∀ (k : Nat) (h : k < 12), e.name[k] = w.getD k 0
  isDir : e.isDir = dir

/-- The entries are the names `acc`, and the name `w` which is not closed. -/
structure Filling (f : PathFill) (acc : List (List UInt8)) (w : List UInt8) : Prop where
  entries : f.entries = acc.length
  done : ∀ (i : Nat) (h : i < acc.length), ∃ e, f.path[i]? = some e ∧ HoldsName e acc[i] true
  current : ∃ e, f.path[acc.length]? = some e ∧ HoldsName e w false

/-- The state for a name that is not closed yet. -/
def stateOf (w : List UInt8) : Nat :=
  if w = [] then 0 else if w = [0x2E] then 1 else if w = [0x2E, 0x2E] then 2 else 3

variable {f f' : PathFill} {acc : List (List UInt8)} {w : List UInt8} {c : UInt8} {e : FatName}

theorem holdsName_zero : HoldsName .zero [] false :=
  ⟨rfl, by simp, fun k hk => by simp [FatName.zero], rfl⟩

theorem put_spec (f : PathFill) {i : Nat} (h : i < 256) (e : FatName) :
    ∃ f', f.put i e = .ok f' ∧ f'.entries = f.entries ∧ f'.state = f.state ∧
      f'.path[i]? = some e ∧ ∀ j, j ≠ i → f'.path[j]? = f.path[j]? := by
  refine ⟨{ f with path := f.path.set i e }, by rw [PathFill.put, dif_pos h], rfl, rfl, by simp [h], ?_⟩
  intro j hj
  exact Vector.getElem?_set_ne h (Ne.symm hj)

theorem get_eq {i : Nat} (h : f.path[i]? = some e) : f.get i = .ok e := by
  obtain ⟨hlt, he⟩ := Vector.getElem?_eq_some_iff.mp h
  rw [PathFill.get, dif_pos hlt, he]

theorem lt_of_getElem? {i : Nat} (h : f.path[i]? = some e) : i < 256 :=
  (Vector.getElem?_eq_some_iff.mp h).1

theorem Filling.put (h : Filling f acc w) {w' : List UInt8} (he : HoldsName e w' false) :
    ∃ f', f.put f.entries e = .ok f' ∧ f'.state = f.state ∧ Filling f' acc w' := by
  obtain ⟨e0, hget, -⟩ := h.current
  obtain ⟨f', heq, hentries, hstate, hput, hsame⟩ := put_spec f (lt_of_getElem? hget) e
  rw [← h.entries] at heq hsame hput
  refine ⟨f', heq, hstate, hentries.trans h.entries, fun i hi => ?_, ⟨e, ?_, he⟩⟩
  · rw [hsame i (by rw [h.entries]; omega)]
    exact h.done i hi
  · rwa [← h.entries]

theorem Filling.addChar (h : Filling f acc w) (hlen : w.length < 12) (c : UInt8) :
    ∃ f', f.addChar c = .ok f' ∧ f'.state = f.state ∧ Filling f' acc (w ++ [c]) := by
  obtain ⟨e, hget, hname⟩ := h.current
  have hlt : e.length < 12 := by rw [hname.length]; exact hlen
  have hnew : HoldsName { e with name := e.name.set e.length c hlt, length := e.length + 1 }
      (w ++ [c]) false := by
    refine ⟨?_, ?_, fun k hk => ?_, hname.isDir⟩
    · simp [← hname.length]
    · rwa [length_append, length_singleton]
    have hw := hname.length
    rw [Vector.getElem_set, getD_eq_getElem?_getD]
    by_cases hlast : e.length = k
    · rw [if_pos hlast, ← hlast, hw, getElem?_concat_length, Option.getD_some]
    rw [if_neg hlast, hname.char k hk, getD_eq_getElem?_getD]
    by_cases hin : k < w.length
    · rw [getElem?_append_left hin]
    · rw [getElem?_eq_none (not_lt.mp hin), getElem?_eq_none]
      rw [length_append, length_singleton]
      omega
  obtain ⟨f', heq, hstate, hfill⟩ := h.put hnew
  refine ⟨f', ?_, hstate, hfill⟩
  rw [PathFill.addChar, h.entries, get_eq hget]
  simp only [bind, Except.bind, if_neg (show ¬e.length > 11 by omega), setChar, dif_pos hlt]
  rwa [← h.entries]

theorem addChar_full (h : Filling f acc w) (hlen : 12 ≤ w.length) (c : UInt8) :
    f.addChar c = .error .invalid := by
  obtain ⟨e, hget, hname⟩ := h.current
  rw [PathFill.addChar, h.entries, get_eq hget]
  simp only [bind, Except.bind, if_pos (show e.length > 11 by rw [hname.length]; omega)]

/-! ## The states -/

section

variable (h : Filling f acc w)
include h

theorem Filling.currentDirectory :
    ∃ f', f.currentDirectory = .ok f' ∧ f'.state = 0 ∧ Filling f' acc [] := by
  have h0 : Filling { f with state := 0 } acc w := ⟨h.entries, h.done, h.current⟩
  exact h0.put holdsName_zero

theorem Filling.parentDirectory :
    ∃ f', f.parentDirectory = .ok f' ∧ f'.state = 0 ∧ Filling f' acc.dropLast [] := by
  have h0 : Filling { f with state := 0 } acc w := ⟨h.entries, h.done, h.current⟩
  obtain ⟨f1, heq1, hstate1, h1⟩ := h0.put holdsName_zero
  rw [PathFill.parentDirectory, heq1]
  simp only [bind, Except.bind]
  by_cases hpos : f1.entries > 0
  · rw [if_pos hpos]
    have hlen := h1.entries
    obtain ⟨e0, hget0, -⟩ := h1.current
    have hlt := lt_of_getElem? hget0
    obtain ⟨f2, heq2, hentries, hstate, hput, hsame⟩ :=
      put_spec { f1 with entries := f1.entries - 1 } (i := f1.entries - 1) (by omega) .zero
    refine ⟨f2, heq2, hstate.trans hstate1, ?_, fun i hi => ?_, ⟨.zero, ?_, holdsName_zero⟩⟩
    · simp [hentries, hlen]
    · rw [length_dropLast] at hi
      rw [hsame i (by omega), getElem_dropLast]
      exact h1.done i (by omega)
    · rwa [length_dropLast, ← hlen]
  · rw [if_neg hpos]
    have hnil : acc = [] := eq_nil_of_length_eq_zero (by rw [← h1.entries]; omega)
    subst hnil
    exact ⟨f1, rfl, hstate1, h1⟩

theorem Filling.closeEntry (hne : w ≠ []) (hlen : acc.length < 255) :
    ∃ f', f.closeEntry = .ok f' ∧ f'.state = 0 ∧ Filling f' (acc ++ [w]) [] := by
  obtain ⟨e, hget, hname⟩ := h.current
  have hpos : e.length > 0 := by
    rw [hname.length]
    exact length_pos_iff.mpr hne
  rw [PathFill.closeEntry, h.entries, get_eq hget]
  simp only [bind, Except.bind, if_pos hpos]
  obtain ⟨f1, heq1, hentries1, -, hput1, hsame1⟩ :=
    put_spec f (i := acc.length) (by omega) { e with isDir := true }
  rw [heq1]
  simp only []
  obtain ⟨f2, heq2, hentries2, hstate2, hput2, hsame2⟩ :=
    put_spec { f1 with entries := f1.entries + 1, state := 0 } (i := f1.entries + 1)
      (by rw [hentries1, h.entries]; omega) .zero
  have hlast : f1.entries = acc.length := hentries1.trans h.entries
  rw [hlast] at heq2 hput2 hsame2 hentries2
  refine ⟨f2, by rw [hlast]; exact heq2, hstate2, ?_, fun i hi => ?_, ⟨.zero, ?_, holdsName_zero⟩⟩
  · simp [hentries2]
  · rw [length_append, length_singleton] at hi
    rw [hsame2 i (by omega)]
    by_cases hil : i < acc.length
    · rw [getElem_append_left hil]
      obtain ⟨e', he', hname'⟩ := h.done i hil
      exact ⟨e', (hsame1 i (by omega)).trans he', hname'⟩
    · obtain rfl : i = acc.length := by omega
      refine ⟨_, hput1, ?_⟩
      rw [getElem_concat_length rfl]
      exact ⟨hname.length, hname.short, hname.char, rfl⟩
  · rwa [length_append, length_singleton]

theorem Filling.advance_slash (hs : f.state = stateOf w) (hlen : acc.length < 255) (last : Bool) :
    ∃ f', f.advance 0x2F last = .ok f' ∧ f'.state = 0 ∧ Filling f' (enter 0x2E acc w) [] := by
  rw [PathFill.advance, hs]
  by_cases hnil : w = []
  · subst hnil
    obtain ⟨e, hget, hname⟩ := h.current
    have hzero : ¬e.length > 0 := by rw [hname.length]; simp
    refine ⟨{ f with state := 0 }, ?_, rfl, ?_⟩
    · simp only [PathFill.closeEntry, h.entries, get_eq hget, bind, Except.bind,
        if_neg hzero]
      rfl
    · exact ⟨h.entries, h.done, h.current⟩
  by_cases hdot : w = [0x2E]
  · subst hdot
    exact h.currentDirectory
  by_cases hdots : w = [0x2E, 0x2E]
  · subst hdots
    exact h.parentDirectory
  · rw [enter_ordinary ⟨hnil, hdot, hdots⟩]
    simp only [stateOf, if_neg hnil, if_neg hdot, if_neg hdots]
    exact h.closeEntry hnil hlen

end

theorem stateOf_snoc (w : List UInt8) (c : UInt8) : stateOf (w ++ [c]) =
    if stateOf w = 0 ∧ c = 0x2E then 1 else if stateOf w = 1 ∧ c = 0x2E then 2 else 3 := by
  match w with
  | [] => by_cases hc : c = 0x2E <;> simp [stateOf]
  | [a] => by_cases ha : a = 0x2E <;> by_cases hc : c = 0x2E <;> simp [stateOf, ha]
  | [a, b] =>
    by_cases ha : a = 0x2E <;> by_cases hb : b = 0x2E <;> simp [stateOf, ha, hb]
  | a :: b :: d :: w => simp [stateOf]

theorem Filling.advance_inner (h : Filling f acc (w ++ [c])) (hs : f.state = stateOf w)
    (hc : c ≠ 0x2F) :
    ∃ f', f.advance c false = .ok f' ∧ f'.state = stateOf (w ++ [c]) ∧ Filling f' acc (w ++ [c]) := by
  rw [PathFill.advance, hs, stateOf_snoc]
  simp only [hc, and_false]
  by_cases h0 : stateOf w = 0 ∧ c = 0x2E
  · rw [if_pos h0, if_pos h0]
    exact ⟨_, rfl, rfl, h.entries, h.done, h.current⟩
  rw [if_neg h0, if_neg h0]
  by_cases h1 : stateOf w = 1 ∧ c = 0x2E
  · rw [if_pos h1, if_pos h1]
    exact ⟨_, rfl, rfl, h.entries, h.done, h.current⟩
  · rw [if_neg h1, if_neg h1]
    exact ⟨_, rfl, rfl, h.entries, h.done, h.current⟩

/-- The names of a path that has ended: all of them are marked as directories,
the last one if the path says so. -/
structure Finished (f : PathFill) (names : List (List UInt8)) (dir : Bool) : Prop where
  entries : f.entries = names.length
  done : ∀ (i : Nat) (h : i < names.length), ∃ e, f.path[i]? = some e ∧
    HoldsName e names[i] (decide (i + 1 < names.length) || dir)

theorem Filling.finished (h : Filling f acc []) : Finished f acc true := by
  refine ⟨h.entries, fun i hi => ?_⟩
  rw [Bool.or_true]
  exact h.done i hi

theorem Filling.advance_last (h : Filling f acc (w ++ [c])) (hs : f.state = stateOf w)
    (hc : c ≠ 0x2F) :
    ∃ f', f.advance c true = .ok f' ∧
      Finished f' (enter 0x2E acc (w ++ [c])) (!decide (Ordinary 0x2E (w ++ [c]))) := by
  have hsnoc := stateOf_snoc w c
  rw [PathFill.advance, hs]
  simp only [hc, and_false]
  by_cases h0 : stateOf w = 0 ∧ c = 0x2E
  · have hdot : w ++ [c] = [0x2E] := by
      by_contra hne
      rw [stateOf, if_neg (by simp), if_neg hne] at hsnoc
      split at hsnoc <;> cases hsnoc
    rw [if_pos h0, hdot, enter_dot]
    obtain ⟨f', heq, -, hfill⟩ := h.currentDirectory
    exact ⟨f', heq, by simpa [Ordinary] using hfill.finished⟩
  rw [if_neg h0]
  rw [if_neg h0] at hsnoc
  by_cases h1 : stateOf w = 1 ∧ c = 0x2E
  · have hdots : w ++ [c] = [0x2E, 0x2E] := by
      by_contra hne
      rw [stateOf, if_neg (by simp), if_neg hne] at hsnoc
      split at hsnoc <;> cases hsnoc
    rw [if_pos h1, hdots, enter_dots]
    obtain ⟨f', heq, -, hfill⟩ := h.parentDirectory
    exact ⟨f', heq, by simpa [Ordinary] using hfill.finished⟩
  rw [if_neg h1]
  rw [if_neg h1] at hsnoc
  have ho : Ordinary 0x2E (w ++ [c]) := by
    refine ⟨by simp, fun heq => ?_, fun heq => ?_⟩ <;> rw [heq] at hsnoc <;> simp [stateOf] at hsnoc
  rw [enter_ordinary ho]
  refine ⟨_, rfl, ?_, fun i hi => ?_⟩
  · show f.entries + 1 = _
    simp [h.entries]
  rw [length_append, length_singleton] at hi ⊢
  by_cases hil : i < acc.length
  · rw [getElem_append_left hil, decide_eq_true (by omega), Bool.true_or]
    exact h.done i hil
  · obtain rfl : i = acc.length := by omega
    rw [getElem_concat_length rfl, decide_eq_false (by omega), decide_eq_true ho]
    exact h.current

/-! ## The loop over the characters -/

/-- Where the loop is after the text `p`. -/
structure Collected (f : PathFill) (p : List UInt8) : Prop where
  filling : Filling f (closedNames p) (openName p)
  state : f.state = stateOf (openName p)

/-- How the text `name` ends: its names, and whether the last one is marked. -/
def Ended (f : PathFill) (name : List UInt8) : Prop :=
  Finished f (components name) (!decide (Ordinary 0x2E (openName name)))

theorem components_eq (name : List UInt8) :
    components name = enter 0x2E (closedNames name) (openName name) :=
  resolve_eq ..

theorem closedNames_snoc (p : List UInt8) (c : UInt8) : closedNames (p ++ [c]) =
    if upper c = 0x2F then enter 0x2E (closedNames p) (openName p) else closedNames p := by
  simp only [closedNames, openName, map_append, map_cons, map_nil, closed]
  split
  · next hc => rw [hc, closedFold_snoc_self]
  · next hc => rw [closedFold_snoc_of_ne hc]

theorem openName_snoc (p : List UInt8) (c : UInt8) : openName (p ++ [c]) =
    if upper c = 0x2F then [] else openName p ++ [upper c] := by
  simp only [openName, map_append, map_cons, map_nil]
  split
  · next hc => rw [hc, lastPiece_snoc_self]
  · next hc => rw [lastPiece_snoc_of_ne hc]

variable {p : List UInt8}

theorem char_invalid (h : Collected f p) (hc : ¬Fits p c) (last : Bool) :
    f.char c last = .error .invalid := by
  rw [PathFill.char]
  split
  · rfl
  next hrange =>
  split
  · rfl
  next hok =>
  have hlow : 0x20 < c := UInt8.not_le.mp fun hle => hrange (.inl hle)
  have hhigh : c ≤ 0x7E := UInt8.not_lt.mp fun hlt => hrange (.inr (.inl hlt))
  have hfew : (closedNames p).length < 255 := by
    rw [← h.filling.entries]
    omega
  have hallowed : allowed c = true := by simp [allowed, hlow, hhigh, hok]
  by_cases hslash : upper c = 0x2F
  · exact absurd ⟨hallowed, hfew, fun hne => absurd hslash hne⟩ hc
  · have hfull : 12 ≤ (openName p).length := Nat.le_of_not_lt fun hlt =>
      hc ⟨hallowed, hfew, fun _ => hlt⟩
    rw [if_pos hslash, addChar_full h.filling hfull]
    rfl

section

variable (h : Collected f p) (hc : Fits p c)
include h hc

theorem Fits.tests : ¬(c ≤ 0x20 ∨ c > 0x7E ∨ f.entries ≥ 255) ∧ ¬forbidden (upper c) = true := by
  obtain ⟨hallowed, hfew, -⟩ := hc
  simp only [allowed, Bool.and_eq_true, decide_eq_true_eq, Bool.not_eq_true'] at hallowed
  obtain ⟨⟨hlow, hhigh⟩, hforb⟩ := hallowed
  refine ⟨?_, by rw [hforb]; simp⟩
  rintro (hle | hgt | hge)
  · exact absurd hlow (UInt8.not_lt.mpr hle)
  · exact absurd hgt (UInt8.not_lt.mpr hhigh)
  · rw [h.filling.entries] at hge
    omega

theorem char_kept (last : Bool) : ∃ f', f.char c last = .ok f' ∧
    if last then Ended f' (p ++ [c]) else Collected f' (p ++ [c]) := by
  obtain ⟨hrange, hok⟩ := hc.tests h
  have hentries := closedNames_snoc p c
  have hopen := openName_snoc p c
  rw [PathFill.char, if_neg hrange, if_neg hok]
  unfold Ended
  rw [components_eq]
  by_cases hslash : upper c = 0x2F
  · rw [if_pos hslash] at hentries hopen
    obtain ⟨f', heq, hstate, hfill⟩ := h.filling.advance_slash h.state hc.2.1 last
    refine ⟨f', by simp only [hslash]; exact heq, ?_⟩
    cases last with
    | false => exact ⟨by rw [hentries, hopen]; exact hfill, by rw [hopen]; exact hstate⟩
    | true => exact (by rw [hentries, hopen, enter_nil]; exact hfill.finished)
  rw [if_neg hslash] at hentries hopen
  obtain ⟨f1, heq1, hstate1, h1⟩ := h.filling.addChar (hc.2.2 hslash) (upper c)
  simp only [ne_eq, hslash, heq1]
  cases last with
  | false =>
    obtain ⟨f', heq, hstate, hfill⟩ := h1.advance_inner (hstate1.trans h.state) hslash
    exact ⟨f', heq, by rw [hentries, hopen]; exact hfill, by rw [hopen]; exact hstate⟩
  | true =>
    obtain ⟨f', heq, hdone⟩ := h1.advance_last (hstate1.trans h.state) hslash
    exact ⟨f', heq, by rw [hentries, hopen]; exact hdone⟩

end

theorem chars_spec {name : List UInt8} : ∀ (rest p : List UInt8) (f : PathFill), rest ≠ [] →
    p ++ rest = name → Collected f p → AtEach Fits p →
    (AtEach Fits name ∧ ∃ f', f.chars rest = .ok f' ∧ Ended f' name) ∨
      (¬AtEach Fits name ∧ f.chars rest = .error .invalid) := by
  intro rest
  induction rest with
  | nil => intro p f h; exact absurd rfl h
  | cons c rest ih =>
    intro p f _ hname h hpassed
    by_cases hc : Fits p c
    · cases rest with
      | nil =>
        obtain ⟨f', heq, hend⟩ := char_kept h hc true
        subst hname
        refine .inl ⟨hpassed.snoc hc, f', ?_, hend⟩
        simp only [PathFill.chars, isEmpty_nil, heq, bind, Except.bind]
      | cons d rest =>
        obtain ⟨f1, heq1, h1⟩ := char_kept h hc false
        have hchars : f.chars (c :: d :: rest) = f1.chars (d :: rest) := by
          rw [PathFill.chars, isEmpty_cons, heq1]
          rfl
        rw [hchars]
        exact ih (p ++ [c]) f1 (by simp) (by rw [← hname]; simp) h1 (hpassed.snoc hc)
    · refine .inr ⟨fun hall => hc (hall p c rest hname.symm), ?_⟩
      simp only [PathFill.chars, char_invalid h hc, bind, Except.bind]

/-! ## The period of a name -/

/-- The name before the last period, its first character apart, and the
extension after it. -/
def CutsInto (w base ext : List UInt8) : Prop :=
  w = base ∧ ext = [] ∧ 0x2E ∉ w.tail ∨ w = base ++ 0x2E :: ext ∧ 0x2E ∉ ext ∧ base ≠ []

variable {base ext : List UInt8} {d : Bool} {name : Vector UInt8 12}

theorem mem_tail_of_append (h : base ≠ []) :
    0x2E ∈ (base ++ 0x2E :: ext).tail := by
  obtain ⟨b, base, rfl⟩ := exists_cons_of_ne_nil h
  simp

theorem CutsInto.unique {base' ext' : List UInt8} (h : CutsInto w base ext)
    (h' : CutsInto w base' ext') : base = base' ∧ ext = ext' := by
  rcases h with ⟨rfl, rfl, hno⟩ | ⟨rfl, hext, hne⟩
  · rcases h' with ⟨rfl, rfl, -⟩ | ⟨rfl, -, hne'⟩
    · simp
    · exact absurd (mem_tail_of_append hne') hno
  rcases h' with ⟨rfl, rfl, hno⟩ | ⟨heq, hext', -⟩
  · exact absurd (mem_tail_of_append hne) hno
  rcases append_eq_append_iff.mp heq with ⟨a, rfl, ha⟩ | ⟨a, rfl, ha⟩
  · cases a with
    | nil => simpa using ha
    | cons x a =>
      exact absurd ((cons.inj ha).2 ▸ by simp : (0x2E : UInt8) ∈ ext) hext
  · cases a with
    | nil => simpa using ha.symm
    | cons x a =>
      exact absurd ((cons.inj ha).2 ▸ by simp : (0x2E : UInt8) ∈ ext') hext'

theorem ShortName.Spells.cutsInto {n : ShortName} (h : n.Spells w) : CutsInto w n.base n.ext :=
  h.imp id fun h => ⟨h.1, h.2, n.base_pos⟩

structure Storable (base ext : List UInt8) : Prop where
  base_length : base.length ≤ 8
  ext_length : ext.length ≤ 3
  not_periods : ∃ c ∈ base, c ≠ 0x2E
  not_reserved : ext = [] → base ∉ reservedNames

theorem spells_iff (h : CutsInto w base ext) :
    (∃ n : ShortName, n.Spells w) ↔ Storable base ext := by
  constructor
  · rintro ⟨n, hn⟩
    obtain ⟨rfl, rfl⟩ := h.unique hn.cutsInto
    exact ⟨n.base_length, n.ext_length, n.not_periods, n.not_reserved⟩
  intro hs
  refine ⟨⟨base, ext, ?_, hs.base_length, hs.ext_length, hs.not_periods, hs.not_reserved⟩,
    h.imp id fun h => ⟨h.1, h.2.1⟩⟩
  obtain ⟨c, hc, -⟩ := hs.not_periods
  exact ne_nil_of_mem hc

theorem lastPeriod_spec (name : Vector UInt8 12) (j : Nat) : lastPeriod name j ≤ j ∧
    (∀ k, lastPeriod name j < k → k ≤ j → name[k]?.getD 0 ≠ 0x2E) ∧
      (lastPeriod name j ≠ 0 → name[lastPeriod name j]?.getD 0 = 0x2E) := by
  induction j with
  | zero => exact ⟨le_rfl, fun k hk hle => by omega, fun h => absurd rfl h⟩
  | succ j ih =>
    obtain ⟨hle, hafter, hat⟩ := ih
    rw [lastPeriod]
    split
    · next hdot => exact ⟨le_rfl, fun k hk hle => by omega, fun _ => hdot⟩
    refine ⟨by omega, fun k hk hkj => ?_, hat⟩
    by_cases hlast : k = j + 1
    · rwa [hlast]
    · exact hafter k hk (by omega)

theorem HoldsName.getD (h : HoldsName e w d) (k : Nat) : e.name[k]?.getD 0 = w.getD k 0 := by
  by_cases hk : k < 12
  · rw [Vector.getElem?_eq_getElem hk, Option.getD_some]
    exact h.char k hk
  · have hshort := h.short
    rw [Vector.getElem?_eq_none (by omega), getD_eq_getElem?_getD,
      getElem?_eq_none (by omega)]

theorem HoldsName.cut (h : HoldsName e w d) (j : Nat) (hj : lastPeriod e.name 11 = j) :
    CutsInto w (if j = 0 then w else w.take j) (if j = 0 then [] else w.drop (j + 1)) ∧
      (j ≠ 0 → j < w.length) := by
  obtain ⟨-, hafter, hat⟩ := lastPeriod_spec e.name 11
  rw [hj] at hafter hat
  have hshort := h.short
  have hno : ∀ k, j < k → (hk : k < w.length) → w[k] ≠ 0x2E := by
    intro k hjk hk
    have := hafter k hjk (by omega)
    rwa [h.getD, getD_eq_getElem?_getD, getElem?_eq_getElem hk] at this
  by_cases h0 : j = 0
  · refine ⟨?_, fun hne => absurd h0 hne⟩
    rw [if_pos h0, if_pos h0]
    refine .inl ⟨rfl, rfl, fun hmem => ?_⟩
    obtain ⟨i, hi, hget⟩ := getElem_of_mem hmem
    rw [length_tail] at hi
    rw [getElem_tail] at hget
    exact hno (i + 1) (by omega) (by omega) hget
  · rw [if_neg h0, if_neg h0]
    have hdot := hat h0
    rw [h.getD, getD_eq_getElem?_getD] at hdot
    have hlt : j < w.length := by
      by_contra hge
      rw [getElem?_eq_none (by omega)] at hdot
      cases hdot
    rw [getElem?_eq_getElem hlt, Option.getD_some] at hdot
    refine ⟨.inr ⟨?_, fun hmem => ?_, fun hnil => ?_⟩, fun _ => hlt⟩
    · simp [← hdot]
    · obtain ⟨i, hi, hget⟩ := getElem_of_mem hmem
      rw [length_drop] at hi
      rw [getElem_drop] at hget
      exact hno (j + 1 + i) (by omega) (by omega) hget
    · have := congrArg List.length hnil
      rw [length_take, length_nil] at this
      omega

theorem moveExtension_spec (name : Vector UInt8 12) {j : Nat} (hj : j ≤ 8) :
    ∃ name', moveExtension name j = .ok name' ∧
      (∀ k (h : k < 12), k < j → name'[k] = name[k]) ∧
      (∀ k (h : k < 12), j ≤ k → k < 8 → k ≤ j + 3 → name'[k] = 0) ∧
      (∀ k (h : k < 12), j + 3 < k → k < 8 → name'[k] = name[k]) ∧
      ∀ k (h : k < 3), name'[8 + k] = name[j + 1 + k]?.getD 0 := by
  simp only [moveExtension, setChar, dif_pos (show j < 12 by omega),
    dif_pos (show j + 1 < 12 by omega), dif_pos (show j + 2 < 12 by omega),
    dif_pos (show j + 3 < 12 by omega)]
  refine ⟨_, rfl, ?_, ?_, ?_, ?_⟩
  all_goals grind

theorem getElem_rightpad (l : List UInt8) {n k : Nat} (hk : k < (l.rightpad n 0x20).length) :
    (l.rightpad n 0x20)[k] = l.getD k 0x20 := by
  rw [getD_eq_getElem?_getD]
  by_cases hlt : k < l.length
  · rw [getElem?_eq_getElem hlt, Option.getD_some]
    simp only [rightpad]
    rw [getElem_append_left hlt]
  · rw [getElem?_eq_none (by omega), Option.getD_none]
    simp only [rightpad]
    rw [getElem_append_right (by omega), getElem_replicate]

theorem padName_toList (hb : base.length ≤ 8) (he : ext.length ≤ 3)
    (hbase : ∀ k (h : k < 8), name[k] = base.getD k 0)
    (hext : ∀ k (h : k < 3), name[8 + k] = ext.getD k 0) (hb0 : ∀ c ∈ base, c ≠ 0)
    (he0 : ∀ c ∈ ext, c ≠ 0) :
    (padName name).toList = base.rightpad 8 0x20 ++ ext.rightpad 3 0x20 ++ [0] := by
  -- a character, or a space for a zero
  have hpad : ∀ (l : List UInt8), (∀ c ∈ l, c ≠ 0) → ∀ k,
      (if l.getD k 0 = 0 then 0x20 else l.getD k 0) = l.getD k 0x20 := by
    intro l hl k
    rw [getD_eq_getElem?_getD, getD_eq_getElem?_getD]
    by_cases hk : k < l.length
    · simp [getElem?_eq_getElem hk, if_neg (hl _ (getElem_mem hk))]
    · rw [getElem?_eq_none (by omega), Option.getD_none, Option.getD_none, if_pos rfl]
  have hlb : (base.rightpad 8 0x20).length = 8 := by simp [rightpad]; omega
  have hle : (ext.rightpad 3 0x20).length = 3 := by simp [rightpad]; omega
  have hall : (base.rightpad 8 0x20 ++ ext.rightpad 3 0x20).length = 11 := by
    rw [length_append, hlb, hle]
  refine ext_getElem ?_ fun k hk _ => ?_
  · rw [length_append, hall, Vector.length_toList]
    rfl
  rw [Vector.length_toList] at hk
  simp only [Vector.getElem_toList, padName, Vector.getElem_ofFn]
  by_cases hk8 : k < 8
  · rw [getElem_append_left (by omega), getElem_append_left (by omega),
      getElem_rightpad, if_neg (by omega), hbase k hk8]
    exact hpad base hb0 k
  obtain ⟨k, rfl⟩ : ∃ i, k = 8 + i := ⟨k - 8, by omega⟩
  by_cases hk11 : k < 3
  · rw [getElem_append_left (by omega), getElem_append_right (by omega),
      getElem_rightpad, if_neg (by omega), hext k hk11]
    simp only [hlb, Nat.add_sub_cancel_left]
    exact hpad ext he0 k
  · obtain rfl : k = 3 := by omega
    rw [getElem_append_right (by omega), if_pos rfl]
    simp

theorem onlyPeriods_iff {rest : List UInt8} (hb : base.length ≤ 8) (hchars : ∀ c ∈ base, 0x20 < c)
    (hname : name.toList = base.rightpad 8 0x20 ++ rest) :
    onlyPeriods name = true ↔ ∀ c ∈ base, c = 0x2E := by
  have hlen : (base.rightpad 8 0x20).length = 8 := by simp [rightpad]; omega
  rw [onlyPeriods, hname, take_left' hlen, all_eq_true]
  simp only [rightpad, mem_append, Bool.or_eq_true, decide_eq_true_eq]
  constructor
  · intro h c hc
    rcases h c (.inl hc) with rfl | hdot
    · exact absurd (hchars _ hc) (by decide)
    · exact hdot
  · rintro h c (hc | hc)
    · exact .inr (h c hc)
    · exact .inl (eq_of_mem_replicate hc)

theorem prefix_space_iff : ∀ {r base t : List UInt8}, 0x20 ∉ r → 0x20 ∉ base →
    (r ++ [0x20] <+: base ++ 0x20 :: t ↔ r = base) := by
  intro r
  induction r with
  | nil =>
    intro base t _ hb
    cases base with
    | nil => simp
    | cons b base =>
      have hne : (0x20 : UInt8) ≠ b := fun h => hb (by rw [h]; simp)
      simp [hne]
  | cons a r ih =>
    intro base t hr hb
    cases base with
    | nil =>
      have hne : a ≠ 0x20 := fun h => hr (by rw [h]; simp)
      simp [hne]
    | cons b base =>
      have hr' : 0x20 ∉ r := fun h => hr (by simp [h])
      have hb' : 0x20 ∉ base := fun h => hb (by simp [h])
      simp only [cons_append, cons_prefix_cons, cons.injEq, ih hr' hb']

theorem reservedNames_noSpace : ∀ r ∈ reservedNames, 0x20 ∉ r := by
  simp [reservedNames]

theorem checkReservedName_iff (hb : base.length ≤ 8) (hbase : ∀ c ∈ base, 0x20 < c)
    (hext : ∀ c ∈ ext, 0x20 < c)
    (hname : name.toList = base.rightpad 8 0x20 ++ ext.rightpad 3 0x20 ++ [0]) :
    checkReservedName name = true ↔ ext = [] ∧ base ∈ reservedNames := by
  have hlen : (base.rightpad 8 0x20).length = 8 := by simp [rightpad]; omega
  have h8 : name[8] = ext.getD 0 0x20 := by
    rw [← Vector.getElem_toList (by simp)]
    simp only [hname, append_assoc]
    rw [getElem_append_right (by omega),
      getElem_append_left (by simp [rightpad]; omega), getElem_rightpad, hlen]
  have hnospace : 0x20 ∉ base := fun h => absurd (hbase _ h) (by decide)
  rw [checkReservedName, h8]
  cases ext with
  | cons c ext =>
    have hc : c ≠ 0x20 := fun h => absurd (hext c (by simp)) (by rw [h]; decide)
    simp [hc]
  | nil =>
    have htail : ∃ t, name.toList = base ++ 0x20 :: t := by
      rw [hname]
      simp only [rightpad, append_assoc]
      cases 8 - base.length with
      | zero => exact ⟨_, rfl⟩
      | succ k => exact ⟨_, by rfl⟩
    obtain ⟨t, ht⟩ := htail
    have hspace : ¬(([] : List UInt8).getD 0 0x20 ≠ 0x20) := by simp
    rw [if_neg hspace, ht, any_eq_true]
    constructor
    · rintro ⟨r, hr, hpre⟩
      rw [ isPrefixOf_iff_prefix, prefix_space_iff (reservedNames_noSpace r hr) hnospace] at hpre
      exact ⟨rfl, hpre ▸ hr⟩
    · rintro ⟨-, hr⟩
      refine ⟨base, hr, ?_⟩
      simp

/-- The name with its extension in place, as `splitEntry` tests it. -/
theorem HoldsName.placed (h : HoldsName e w d) (hj : j ≠ 0 → j < w.length)
    (hbase : base = if j = 0 then w else w.take j)
    (hext : ext = if j = 0 then [] else w.drop (j + 1)) (hb : base.length ≤ 8)
    (he : ext.length ≤ 3) (hb0 : ∀ c ∈ base, c ≠ 0) (he0 : ∀ c ∈ ext, c ≠ 0) :
    ∃ name, (if j ≠ 0 then moveExtension e.name j else .ok e.name) = .ok name ∧
      (padName name).toList = base.rightpad 8 0x20 ++ ext.rightpad 3 0x20 ++ [0] := by
  by_cases h0 : j = 0
  · rw [if_pos h0] at hbase hext
    refine ⟨e.name, if_neg (not_not_intro h0), padName_toList hb he (fun k hk => ?_) (fun k hk => ?_)
      hb0 he0⟩
    · rw [hbase]
      exact h.char k (by omega)
    · rw [h.char (8 + k) (by omega), hext, getD_eq_getElem?_getD, getElem?_eq_none]
      · simp
      · rw [← hbase]
        omega
  · rw [if_neg h0] at hbase hext
    have hbaseLen : base.length = j := by rw [hbase, length_take]; omega
    have hextLen : ext.length = w.length - (j + 1) := by rw [hext, length_drop]
    obtain ⟨name, heq, hbefore, hzero, hafter, hmoved⟩ := moveExtension_spec e.name (j := j) (by omega)
    refine ⟨name, by rw [if_pos h0, heq], padName_toList hb he (fun k hk => ?_) (fun k hk => ?_)
      hb0 he0⟩
    · rw [getD_eq_getElem?_getD]
      by_cases hkj : k < j
      · rw [hbefore k (by omega) hkj, h.char k (by omega), getD_eq_getElem?_getD, hbase,
          getElem?_take_of_lt hkj]
      rw [getElem?_eq_none (by omega), Option.getD_none]
      by_cases hk3 : k ≤ j + 3
      · exact hzero k (by omega) (by omega) hk hk3
      · rw [hafter k (by omega) (by omega) hk, h.char k (by omega), getD_eq_getElem?_getD,
          getElem?_eq_none (by omega), Option.getD_none]
    · rw [hmoved k hk, h.getD, getD_eq_getElem?_getD, getD_eq_getElem?_getD, hext,
        getElem?_drop]

theorem splitEntry_spec (h : HoldsName e w d) (hchars : ∀ c ∈ w, 0x20 < c) :
    (∃ n : ShortName, n.Spells w ∧ ∃ e', splitEntry e = .ok e' ∧ e'.name.toList = n.bytes ++ [0] ∧
        e'.isDir = d) ∨
      ((¬∃ n : ShortName, n.Spells w) ∧ splitEntry e = .error .invalid) := by
  obtain ⟨j, hj⟩ : ∃ j, lastPeriod e.name 11 = j := ⟨_, rfl⟩
  obtain ⟨base, hbase⟩ : ∃ base, base = if j = 0 then w else w.take j := ⟨_, rfl⟩
  obtain ⟨ext, hext⟩ : ∃ ext, ext = if j = 0 then [] else w.drop (j + 1) := ⟨_, rfl⟩
  obtain ⟨hcut, hjlt⟩ := h.cut j hj
  rw [← hbase, ← hext] at hcut
  have hspells := spells_iff hcut
  have hcharsBase : ∀ c ∈ base, 0x20 < c := by
    intro c hc
    rw [hbase] at hc
    split at hc
    · exact hchars c hc
    · exact hchars c (mem_of_mem_take hc)
  have hcharsExt : ∀ c ∈ ext, 0x20 < c := by
    intro c hc
    rw [hext] at hc
    split at hc
    · cases hc
    · exact hchars c (mem_of_mem_drop hc)
  -- the tests of the lengths
  have hlong : (j > 8 ∨ j = 0 ∧ e.length > 8) ↔ ¬base.length ≤ 8 := by
    rw [hbase, h.length]
    split
    · next h0 => omega
    · next h0 => rw [length_take]; omega
  have hlongExt : (j ≠ 0 ∧ e.length - j > 4) ↔ ¬ext.length ≤ 3 := by
    rw [hext, h.length]
    split
    · next h0 => simp [h0]
    · next h0 => rw [length_drop]; omega
  by_cases hb : base.length ≤ 8
  case neg =>
    refine .inr ⟨fun hn => hb (hspells.mp hn).base_length, ?_⟩
    simp only [splitEntry, hj, if_pos (hlong.mpr hb)]
  by_cases he : ext.length ≤ 3
  case neg =>
    refine .inr ⟨fun hn => he (hspells.mp hn).ext_length, ?_⟩
    simp only [splitEntry, hj, if_neg (mt hlong.mp (not_not_intro hb)), if_pos (hlongExt.mpr he)]
  have hnz : ∀ c : UInt8, 0x20 < c → c ≠ 0 := fun c hc h0 => absurd hc (by rw [h0]; decide)
  obtain ⟨name, hname, hpad⟩ := h.placed hjlt hbase hext hb he
    (fun c hc => hnz c (hcharsBase c hc)) fun c hc => hnz c (hcharsExt c hc)
  have hperiods : onlyPeriods (padName name) = true ↔ ∀ c ∈ base, c = 0x2E :=
    onlyPeriods_iff hb hcharsBase (by rw [hpad, append_assoc])
  have hreserved := checkReservedName_iff hb hcharsBase hcharsExt hpad
  have hsplit : splitEntry e = if onlyPeriods (padName name) then .error .invalid
      else if checkReservedName (padName name) then .error .invalid
      else .ok { e with name := padName name } := by
    simp only [splitEntry, hj, if_neg (mt hlong.mp (not_not_intro hb)),
      if_neg (mt hlongExt.mp (not_not_intro he)), bind, Except.bind]
    by_cases h0 : j ≠ 0
    · rw [if_pos h0] at hname ⊢
      rw [hname]
    · rw [if_neg h0] at hname ⊢
      rw [Except.ok.inj hname]
  rw [hsplit]
  by_cases hp : onlyPeriods (padName name) = true
  · refine .inr ⟨fun hn => ?_, if_pos hp⟩
    obtain ⟨c, hc, hdot⟩ := (hspells.mp hn).not_periods
    exact hdot (hperiods.mp hp c hc)
  rw [if_neg hp]
  by_cases hr : checkReservedName (padName name) = true
  · refine .inr ⟨fun hn => ?_, if_pos hr⟩
    obtain ⟨hnil, hmem⟩ := hreserved.mp hr
    exact (hspells.mp hn).not_reserved hnil hmem
  rw [if_neg hr]
  have hstorable : Storable base ext := by
    refine ⟨hb, he, ?_, fun hnil hmem => hr (hreserved.mpr ⟨hnil, hmem⟩)⟩
    by_contra hno
    refine hp (hperiods.mpr fun c hc => ?_)
    by_contra hdot
    exact hno ⟨c, hc, hdot⟩
  obtain ⟨n, hn⟩ := hspells.mpr hstorable
  obtain ⟨rfl, rfl⟩ := hcut.unique hn.cutsInto
  exact .inl ⟨n, hn, _, rfl, hpad, h.isDir⟩

theorem split_spec {names : List (List UInt8)} {d : Nat → Bool}
    (hnames : ∀ w ∈ names, ∀ c ∈ w, 0x20 < c) : ∀ (left i : Nat) (f : PathFill),
    i + left = names.length →
    (∀ (k : Nat) (h : k < names.length), i ≤ k → ∃ e, f.path[k]? = some e ∧ HoldsName e names[k] (d k)) →
    (∃ f', f.split left i = .ok f' ∧ f'.entries = f.entries ∧
        (∀ k, k < i → f'.path[k]? = f.path[k]?) ∧
        ∀ (k : Nat) (h : k < names.length), i ≤ k → ∃ n : ShortName, n.Spells names[k] ∧
          ∃ e, f'.path[k]? = some e ∧ e.name.toList = n.bytes ++ [0] ∧ e.isDir = d k) ∨
      ((¬∀ (k : Nat) (h : k < names.length), i ≤ k → ∃ n : ShortName, n.Spells names[k]) ∧
        f.split left i = .error .invalid) := by
  intro left
  induction left with
  | zero =>
    intro i f hi _
    exact .inl ⟨f, rfl, rfl, fun _ _ => rfl, fun k hk hik => by omega⟩
  | succ left ih =>
    intro i f hi hholds
    have hlt : i < names.length := by omega
    obtain ⟨e, hget, hname⟩ := hholds i hlt le_rfl
    have hchars := hnames _ (getElem_mem hlt)
    rw [PathFill.split, get_eq hget]
    simp only [bind, Except.bind]
    rcases splitEntry_spec hname hchars with ⟨n, hn, e', heq, hbytes, hdir⟩ | ⟨hno, heq⟩
    · rw [heq]
      obtain ⟨f1, hput, hentries, -, hget1, hsame⟩ := put_spec f (lt_of_getElem? hget) e'
      simp only [hput]
      rcases ih (i + 1) f1 (by omega) (fun k hk hik => by
        rw [hsame k (by omega)]
        exact hholds k hk (by omega)) with ⟨f', hok, hent', hbefore, hdone⟩ | ⟨hbad, herr⟩
      · refine .inl ⟨f', hok, hent'.trans hentries, fun k hk => ?_, fun k hk hik => ?_⟩
        · rw [hbefore k (by omega), hsame k (by omega)]
        · by_cases hki : k = i
          · subst hki
            exact ⟨n, hn, e', (hbefore k (by omega)).trans hget1, hbytes, hdir⟩
          · exact hdone k hk (by omega)
      · exact .inr ⟨fun hall => hbad fun k hk hik => hall k hk (by omega), herr⟩
    · rw [heq]
      exact .inr ⟨fun hall => hno (hall i hlt le_rfl), rfl⟩

/-- The paths that are accepted: every character may stand where it does, and
there are names, all of which may be stored. -/
structure Accepted (name : List UInt8) : Prop where
  fits : AtEach Fits name
  names : components name ≠ []
  storable : ∀ w ∈ components name, ∃ n : ShortName, n.Spells w

theorem mem_map_upper (h : AtEach Fits p) : ∀ c ∈ p.map upper, 0x20 < c := by
  intro c hc
  obtain ⟨a, ha, rfl⟩ := mem_map.mp hc
  obtain ⟨s, t, rfl⟩ := append_of_mem ha
  have hallowed := (h s a t rfl).1
  simp only [allowed, Bool.and_eq_true, decide_eq_true_eq] at hallowed
  rw [upper]
  split
  · next hl =>
    have hlow : 0x61 ≤ a.toNat := UInt8.le_iff_toNat_le.mp hl.1
    have h32 : (32 : UInt8) ≤ a := UInt8.le_iff_toNat_le.mpr (show 32 ≤ a.toNat by omega)
    rw [UInt8.lt_iff_toNat_lt, UInt8.toNat_sub_of_le _ _ h32]
    show 32 < a.toNat - 32
    omega
  · exact hallowed.1.1

theorem components_chars (h : AtEach Fits p) :
    ∀ w ∈ components p, ∀ c ∈ w, 0x20 < c := by
  have hmem := mem_map_upper h
  have hclosed : ∀ w ∈ closedNames p, ∀ c ∈ w, 0x20 < c := by
    refine closedFold_ind (P := fun acc => ∀ w ∈ acc, ∀ c ∈ w, 0x20 < c) (by simp) ?_
    intro acc piece hacc _ hp w hw
    rcases mem_enter hw with hw | ⟨-, rfl⟩
    · exact hacc w hw
    · exact fun c hc => hmem c (hp c hc)
  intro w hw
  rw [components_eq] at hw
  rcases mem_enter hw with hw | ⟨-, rfl⟩
  · exact hclosed w hw
  · exact fun c hc => hmem c (mem_of_mem_lastPiece hc)

/-- `fill_path_buffer`: a path is accepted or it is an error, nothing is written
outside of the arrays, and the entries of an accepted path are its names. -/
theorem fillPathBuffer_spec (path : PathBuffer) (name : List UInt8) :
    (Accepted name ∧ ∃ path', fillPathBuffer path name = .ok (path', (components name).length) ∧
        ∀ (i : Nat) (h : i < (components name).length), ∃ n : ShortName,
          n.Spells (components name)[i] ∧ ∃ e, path'[i]? = some e ∧ e.name.toList = n.bytes ++ [0] ∧
            (e.isDir = true ↔ i + 1 < (components name).length ∨
              ¬Ordinary 0x2E (openName name))) ∨
      (¬Accepted name ∧ fillPathBuffer path name = .error .invalid) := by
  obtain ⟨f0, hput, hentries, hstate, hget, -⟩ := put_spec ⟨path, 0, 0⟩ (i := 0) (by omega) .zero
  have hfill : fillPathBuffer path name = (do
      let f ← f0.chars name
      let f ← f.split f.entries 0
      if f.entries = 0 then .error .invalid else .ok (f.path, f.entries)) := by
    rw [fillPathBuffer, hput]
    rfl
  by_cases hnil : name = []
  · subst hnil
    refine .inr ⟨fun h => h.names rfl, ?_⟩
    rw [hfill]
    simp only [PathFill.chars, bind, Except.bind, hentries, PathFill.split, if_true]
  have hcollected : Collected f0 [] :=
    ⟨⟨hentries, fun i hi => absurd hi (by simp [closedNames, closed]), .zero, hget, holdsName_zero⟩, hstate⟩
  rcases chars_spec name [] f0 hnil (nil_append name) hcollected .nil with ⟨hfits, f1, hchars, hend⟩ | ⟨hno, herr⟩
  · have hchars' := components_chars hfits
    have hlen := hend.entries
    have hsplit := split_spec hchars' f1.entries 0 f1 (by omega) fun k hk _ => hend.done k hk
    by_cases hnames : components name = []
    · refine .inr ⟨fun h => h.names hnames, ?_⟩
      rw [hnames, length_nil] at hlen
      rw [hfill, hchars]
      simp only [bind, Except.bind, hlen, PathFill.split, if_true]
    rcases hsplit with ⟨f2, heq, hentries2, -, hdone⟩ | ⟨hbad, herr⟩
    · have hpos : ¬f2.entries = 0 := by
        rw [hentries2, hlen]
        exact fun h0 => hnames (eq_nil_of_length_eq_zero h0)
      refine .inl ⟨⟨hfits, hnames, fun w hw => ?_⟩, f2.path, ?_, fun i hi => ?_⟩
      · obtain ⟨i, hi, rfl⟩ := getElem_of_mem hw
        obtain ⟨n, hn, -⟩ := hdone i hi (Nat.zero_le _)
        exact ⟨n, hn⟩
      · rw [hfill, hchars]
        simp only [bind, Except.bind]
        rw [heq]
        simp only []
        rw [if_neg hpos, hentries2, hlen]
      · obtain ⟨n, hn, e, hget, hbytes, hdir⟩ := hdone i hi (Nat.zero_le _)
        exact ⟨n, hn, e, hget, hbytes, by rw [hdir]; simp⟩
    · refine .inr ⟨fun h => hbad fun k hk _ => h.storable _ (getElem_mem hk), ?_⟩
      rw [hfill, hchars]
      simp only [bind, Except.bind, herr]
  · refine .inr ⟨fun h => hno h.fits, ?_⟩
    rw [hfill, herr]
    rfl

/-- The name `A`. -/
def nameA : ShortName where
  base := [0x41]
  ext := []
  base_pos := cons_ne_nil _ _
  base_length := by simp
  ext_length := by simp
  not_periods := ⟨0x41, by simp⟩
  not_reserved _ := by simp [reservedNames]

/-- The path `*/../A` has the name `A` only, and it is an error. -/
theorem fillPathBuffer_dropped :
    ¬∀ (path : PathBuffer) (name : List UInt8), (∃ r, fillPathBuffer path name = .ok r) ↔
      components name ≠ [] ∧ ∀ w ∈ components name,
        (∀ c ∈ w, allowed c = true) ∧ ∃ n : ShortName, n.Spells w := by
  intro hall
  have hcomp : components [0x2A, 0x2F, 0x2E, 0x2E, 0x2F, 0x41] = [[0x41]] := by decide
  obtain ⟨r, hr⟩ := (hall (Vector.replicate 256 .zero) [0x2A, 0x2F, 0x2E, 0x2E, 0x2F, 0x41]).mpr (by
    rw [hcomp]
    refine ⟨by simp, fun w hw => ?_⟩
    rw [mem_singleton.mp hw]
    refine ⟨fun c hc => ?_, nameA, .inl ⟨rfl, rfl, by simp⟩⟩
    rw [mem_singleton.mp hc]
    decide)
  rcases fillPathBuffer_spec (Vector.replicate 256 .zero) [0x2A, 0x2F, 0x2E, 0x2E, 0x2F, 0x41] with
    ⟨hok, -⟩ | ⟨-, herr⟩
  · exact absurd (hok.fits [] 0x2A _ rfl).1 (by decide)
  · rw [hr] at herr
    cases herr

end Dancy.Fat
