import Mathlib.Data.List.TakeWhile
import Mathlib.Tactic.Common

/-!
# rm

`rm` decides on the text of its operand what it refuses, while the file
system removes by the path that the text stands for. The file system is a
set of paths with the answers of the calls that may fail.
-/

namespace Dancy.Rm

open List Function Option

abbrev Name := List Char
abbrev Path := List Name

inductive Kind
  | file
  | dir
  deriving DecidableEq

abbrev Kinds := Path → Option Kind

/-- `.` and `..`, and the empty name that ends a record. -/
def Special (n : Name) : Prop := n = [] ∨ n = ['.'] ∨ n = ['.', '.']

instance (n : Name) : Decidable (Special n) := inferInstanceAs (Decidable (_ ∨ _ ∨ _))

/-- The names of the directories in the order of `readdir`, how many of them it
delivers where it fails, and which other calls succeed. -/
structure Fs where
  cwd : Path
  names : Path → List Name
  slash : ∀ p, ∀ n ∈ names p, '/' ∉ n
  readdir : Path → Option Nat
  accepts : Name → Bool
  (realpath opendir unlink rmdir : Path → Bool)

def step (p : Path) (n : Name) : Path :=
  if n = [] ∨ n = ['.'] then p else if n = ['.', '.'] then p.dropLast else p ++ [n]

def walk : Name → Name → Path → Path
  | [], cur, p => step p cur
  | c :: text, cur, p => if c = '/' then walk text [] (step p cur) else walk text (cur ++ [c]) p

/-- The path that a text stands for (`build_vname`). -/
def Fs.resolve (fs : Fs) (text : Name) : Path :=
  walk text [] (if text.head? = some '/' then [] else fs.cwd)

def lastComponent (text : Name) : Name := (text.reverse.takeWhile (· ≠ '/')).reverse

/-- The final component, trailing slashes ignored. -/
def finalComponent (text : Name) : Name :=
  lastComponent (text.reverse.dropWhile (· = '/')).reverse

def mustDir (text : Name) : Bool := decide (Special (lastComponent text))

def kindAt (kind : Kinds) (p : Path) : Option Kind := if p = [] then some .dir else kind p

/-- A name that `readdir` finds; the special ones are always there. -/
def listed (kind : Kinds) (p : Path) (n : Name) : Bool :=
  decide (Special n) || (kind (p ++ [n])).isSome

def Fs.lstat (fs : Fs) (kind : Kinds) (text : Name) : Option Kind :=
  if text = [] ∨ !fs.accepts text then none
  else match kindAt kind (fs.resolve text) with
    | some .file => if mustDir text then none else some .file
    | k => k

def Fs.unlinkAt (fs : Fs) (kind : Kinds) (text : Name) : Option Kinds :=
  if mustDir text then none
  else if kindAt kind (fs.resolve text) = some .file ∧ fs.unlink (fs.resolve text) then
    some (update kind (fs.resolve text) none)
  else none

def Fs.rmdirAt (fs : Fs) (kind : Kinds) (text : Name) : Option Kinds :=
  let p := fs.resolve text
  if p ≠ [] ∧ kind p = some .dir ∧ fs.rmdir p ∧
      (fs.names p).all fun n => decide (Special n) || !(kind (p ++ [n])).isSome then
    some (update kind p none)
  else none

/-- The names up to the end of the directory, or up to an error. -/
def Fs.opendirAt (fs : Fs) (kind : Kinds) (text : Name) : Option (List Name × Bool) :=
  let p := fs.resolve text
  if fs.opendir p then
    let all := (fs.names p).filter (listed kind p)
    match fs.readdir p with
    | none => some (all, true)
    | some k => some (all.take k, false)
  else none

/-! ## operate.c -/

def strrchr : Name → Option Name
  | [] => none
  | c :: text => match strrchr text with
    | some e => some e
    | none => if c = '/' then some (c :: text) else none

/-- `check_directory`: whether it refuses. -/
def checkDirectory (fs : Fs) (text : Name) : Bool :=
  let p := (strrchr text).getD text
  if p = ['.'] ∨ p = ['.', '.'] then true
  else if fs.realpath (fs.resolve text) then decide (fs.resolve text = []) else true

/-- The path of an entry does not fit into `buffer`. -/
def TooLong (text n : Name) : Prop := text.length + 1 + n.length ≥ 0x1000 - 1

instance (text n : Name) : Decidable (TooLong text n) := inferInstanceAs (Decidable (_ ≥ _))

/-- The loop over the entries, and whether it returned from their middle. -/
def rmLoop (rm : Name → Kinds → Nat × Kinds) (text : Name) :
    List Name → Nat → Kinds → Bool × Nat × Kinds
  | [], r, kind => (false, r, kind)
  | n :: rest, r, kind =>
    if Special n then rmLoop rm text rest r kind
    else if TooLong text n then (true, r, kind)
    else rmLoop rm text rest (r ||| (rm (text ++ '/' :: n) kind).1) (rm (text ++ '/' :: n) kind).2

/-- `handle_rm` with so many levels of `recursion` left. -/
def handleRm (fs : Fs) (force recursive : Bool) : Nat → Name → Kinds → Nat × Kinds
  | 0, _, kind => (1, kind)
  | left + 1, text, kind =>
    match fs.lstat kind text with
    | none => (if force then 0 else 1, kind)
    | some .file => match fs.unlinkAt kind text with
      | some kind' => (0, kind')
      | none => (1, kind)
    | some .dir =>
      if !recursive then (1, kind)
      else if checkDirectory fs text then (if force then 0 else 1, kind)
      else match fs.opendirAt kind text with
        | none => (1, kind)
        | some (entries, ok) =>
          let (stopped, r, kind') := rmLoop (handleRm fs force recursive left) text entries 0 kind
          if stopped || !ok then (1, kind')
          else match fs.rmdirAt kind' text with
            | none => (1, kind')
            | some kind'' => (r, kind'')

/-- `handle_rm(opt, path, 0)`. -/
def rm (fs : Fs) (force recursive : Bool) (text : Name) (kind : Kinds) : Nat × Kinds :=
  handleRm fs force recursive (0x1000 + 1) text kind

def Dotted (n : Name) : Prop := n = ['.'] ∨ n = ['.', '.']

/-- `rm` removes only in the tree of the operand, nothing for a dot operand or
the root, and what it reports as removed is gone. -/
structure Promised (fs : Fs) (force : Bool) (text : Name) (kind : Kinds) (out : Nat × Kinds) :
    Prop where
  inside : ∀ q, out.2 q = kind q ∨ out.2 q = none ∧ fs.resolve text <+: q
  refused : Dotted (finalComponent text) ∨ fs.resolve text = [] → out.2 = kind
  gone : out.1 = 0 → force = false → kindAt out.2 (fs.resolve text) = none

/-- `rm -r` comes to something that it can remove. -/
inductive Reaches (fs : Fs) (kind : Kinds) : Nat → Name → Prop
  | file {left text} : fs.lstat kind text = some .file → (fs.unlinkAt kind text).isSome →
      Reaches fs kind (left + 1) text
  | empty {left text entries} : fs.lstat kind text = some .dir → checkDirectory fs text = false →
      fs.opendirAt kind text = some (entries, true) → (∀ n ∈ entries, Special n) →
      (fs.rmdirAt kind text).isSome → Reaches fs kind (left + 1) text
  | inside {left text before n after ok} : fs.lstat kind text = some .dir →
      checkDirectory fs text = false → fs.opendirAt kind text = some (before ++ n :: after, ok) →
      (∀ m ∈ before, Special m ∨ ¬TooLong text m) → ¬Special n → ¬TooLong text n →
      Reaches fs kind left (text ++ '/' :: n) → Reaches fs kind (left + 1) text

theorem walk_slash {n : Name} (hn : '/' ∉ n) (text : Name) :
    ∀ cur p, walk (text ++ '/' :: n) cur p = step (walk text cur p) n := by
  have hname : ∀ n cur p, '/' ∉ n → walk n cur p = step p (cur ++ n) := by
    intro n
    induction n with
    | nil =>
      intro cur p _
      rw [walk, append_nil]
    | cons c n ih =>
      intro cur p hn
      rw [mem_cons, not_or] at hn
      rw [walk, if_neg (Ne.symm hn.1), ih _ _ hn.2, append_assoc, singleton_append]
  induction text with
  | nil =>
    intro cur p
    simp only [nil_append, walk, if_true]
    rw [hname n _ _ hn, nil_append]
  | cons c text ih =>
    intro cur p
    rw [cons_append, walk, walk]
    split <;> exact ih _ _

variable {text : Name} {p : Path} {a b kind : Kinds} {entries : List Name}
  {f : Name → Kinds → Nat × Kinds}

theorem Fs.resolve_slash (fs : Fs) {n : Name} (htext : text ≠ []) (hn : '/' ∉ n)
    (hspecial : ¬Special n) : fs.resolve (text ++ '/' :: n) = fs.resolve text ++ [n] := by
  obtain ⟨c, text, rfl⟩ := exists_cons_of_ne_nil htext
  simp only [Special, not_or] at hspecial
  rw [Fs.resolve, Fs.resolve, walk_slash hn, step, if_neg (by simp [hspecial]),
    if_neg hspecial.2.2]
  rfl

theorem finalComponent_bare (h : '/' ∉ text) : finalComponent text = text := by
  have hrev : ∀ c ∈ text.reverse, c ≠ '/' := fun c hc heq => h (heq ▸ mem_reverse.mp hc)
  have hdrop : text.reverse.dropWhile (· = '/') = text.reverse := by
    cases htext : text.reverse with
    | nil => rfl
    | cons c rest =>
      rw [dropWhile_cons, if_neg (by simpa using hrev c (htext ▸ mem_cons_self))]
  rw [finalComponent, lastComponent, hdrop, reverse_reverse,
    takeWhile_eq_self_iff.mpr (by simpa using hrev), reverse_reverse]

variable {fs : Fs}

theorem checkDirectory_of_bare (h : '/' ∉ text) (hdot : Dotted (finalComponent text)) :
    checkDirectory fs text = true := by
  rw [finalComponent_bare h, Dotted] at hdot
  cases he : strrchr text with
  | none => rw [checkDirectory, he, getD_none, if_pos hdot]
  | some e =>
    rcases hdot with rfl | rfl <;> cases he

theorem checkDirectory_root (h : fs.resolve text = []) : checkDirectory fs text = true := by
  simp [checkDirectory, h]

/-! ## What is removed -/

/-- Nothing is added, and what is gone was under `p`. -/
def Shrinks (p : Path) (kind kind' : Kinds) : Prop :=
  ∀ q, kind' q = kind q ∨ kind' q = none ∧ p <+: q

def Lost (kind kind' : Kinds) : Prop := ∃ q, kind q ≠ none ∧ kind' q = none

theorem Shrinks.refl (p : Path) (kind : Kinds) : Shrinks p kind kind := fun _ => .inl rfl

theorem Shrinks.trans {c : Kinds} (h : Shrinks p a b) (h' : Shrinks p b c) :
    Shrinks p a c := by
  intro q
  rcases h' q with heq | hgone
  · exact heq ▸ h q
  · exact .inr hgone

theorem Shrinks.mono {p' : Path} (h : Shrinks p' a b) (hp : p <+: p') :
    Shrinks p a b := fun q => (h q).imp_right fun hq => ⟨hq.1, hp.trans hq.2⟩

theorem shrinks_remove (kind : Kinds) (p : Path) : Shrinks p kind (update kind p none) := by
  intro q
  by_cases hq : q = p
  · exact .inr ⟨by rw [hq, update_self], hq ▸ prefix_rfl⟩
  · exact .inl (update_of_ne hq ..)

theorem Shrinks.eq_or_lost (h : Shrinks p a b) : b = a ∨ Lost a b := by
  by_cases hlost : Lost a b
  · exact .inr hlost
  · refine .inl (funext fun q => ?_)
    rcases h q with heq | ⟨hnone, _⟩
    · exact heq
    · exact hnone.trans (not_not.mp fun hne => hlost ⟨q, Ne.symm hne, hnone⟩)

theorem Lost.shrinks {c : Kinds} (h : Lost a b) (h' : Shrinks p b c) : Lost a c := by
  obtain ⟨q, hq, hnone⟩ := h
  exact ⟨q, hq, (h' q).elim (·.trans hnone) (·.1)⟩

theorem Lost.irrefl : ¬Lost a a := fun ⟨_, hne, hnone⟩ => hne hnone

theorem unlinkAt_some {kind' : Kinds} (h : fs.unlinkAt kind text = some kind') :
    kind (fs.resolve text) = some .file ∧ kind' = update kind (fs.resolve text) none := by
  unfold Fs.unlinkAt at h
  split at h
  · cases h
  split at h
  · rename_i hkind
    cases h
    refine ⟨?_, rfl⟩
    have hk := hkind.1
    unfold kindAt at hk
    split at hk
    · cases hk
    · exact hk
  · cases h

theorem rmdirAt_some {kind' : Kinds} (h : fs.rmdirAt kind text = some kind') :
    kind (fs.resolve text) = some .dir ∧ fs.resolve text ≠ [] ∧
      kind' = update kind (fs.resolve text) none ∧
      ∀ n ∈ fs.names (fs.resolve text), Special n ∨ kind (fs.resolve text ++ [n]) = none := by
  simp only [Fs.rmdirAt] at h
  split at h
  · rename_i hok
    cases h
    refine ⟨hok.2.1, hok.1, rfl, fun n hn => ?_⟩
    have := all_eq_true.mp hok.2.2.2 n hn
    simpa using this
  · cases h

theorem lost_remove {k : Kind} (h : kind p = some k) :
    Lost kind (update kind p none) :=
  ⟨p, by simp [h], update_self ..⟩

theorem opendirAt_names {ok : Bool} (h : fs.opendirAt kind text = some (entries, ok)) :
    ∀ n ∈ entries, n ∈ fs.names (fs.resolve text) ∧ listed kind (fs.resolve text) n = true := by
  simp only [Fs.opendirAt] at h
  split at h
  · split at h <;> cases h
    · exact fun n hn => mem_filter.mp hn
    · exact fun n hn => mem_filter.mp (take_subset _ _ hn)
  · cases h

theorem rmLoop_shrinks : ∀ {r : Nat} {kind : Kinds},
    (∀ n ∈ entries, ¬Special n → ∀ kind, Shrinks p kind (f (text ++ '/' :: n) kind).2) →
    Shrinks p kind (rmLoop f text entries r kind).2.2 := by
  induction entries with
  | nil => exact fun _ => Shrinks.refl p _
  | cons n rest ih =>
    intro r kind hf
    rw [forall_mem_cons] at hf
    rw [rmLoop]
    split
    · exact ih hf.2
    · rename_i hspecial
      split
      · exact Shrinks.refl p kind
      · exact (hf.1 hspecial kind).trans (ih hf.2)

/-- Whatever the loop removes, the first that removes something does it in the
file system as it was. -/
theorem rmLoop_lost : ∀ {r : Nat} {kind : Kinds},
    (∀ n ∈ entries, ¬Special n → ∀ kind, Shrinks p kind (f (text ++ '/' :: n) kind).2) →
    (Lost kind (rmLoop f text entries r kind).2.2 ↔
      ∃ before n after, entries = before ++ n :: after ∧
        (∀ m ∈ before, Special m ∨ ¬TooLong text m) ∧ ¬Special n ∧ ¬TooLong text n ∧
        Lost kind (f (text ++ '/' :: n) kind).2) := by
  induction entries with
  | nil =>
    intro r kind _
    refine iff_of_false Lost.irrefl ?_
    rintro ⟨before, n, after, h, _⟩
    simp at h
  | cons m rest ih =>
    intro r kind hf
    rw [forall_mem_cons] at hf
    have hlater : ∀ r, (Special m ∨ ¬TooLong text m) →
        (¬Special m → ¬Lost kind (f (text ++ '/' :: m) kind).2) →
        (Lost kind (rmLoop f text rest r kind).2.2 ↔
          ∃ before n after, m :: rest = before ++ n :: after ∧
            (∀ m ∈ before, Special m ∨ ¬TooLong text m) ∧ ¬Special n ∧ ¬TooLong text n ∧
            Lost kind (f (text ++ '/' :: n) kind).2) := by
      intro r hm hnot
      rw [ih hf.2]
      constructor
      · rintro ⟨before, n, after, rfl, hb, hrest⟩
        exact ⟨m :: before, n, after, rfl, forall_mem_cons.mpr ⟨hm, hb⟩, hrest⟩
      rintro ⟨before, n, after, heq, hb, hspecial, hlong, hlost⟩
      cases before with
      | nil =>
        rw [nil_append, cons.injEq] at heq
        exact absurd (heq.1 ▸ hlost) (hnot (heq.1 ▸ hspecial))
      | cons b before =>
        rw [cons_append, cons.injEq] at heq
        exact ⟨before, n, after, heq.2, (forall_mem_cons.mp hb).2, hspecial, hlong, hlost⟩
    rw [rmLoop]
    by_cases hspecial : Special m
    · rw [if_pos hspecial]
      exact hlater r (.inl hspecial) fun h => absurd hspecial h
    rw [if_neg hspecial]
    by_cases hlong : TooLong text m
    · rw [if_pos hlong]
      refine iff_of_false Lost.irrefl ?_
      rintro ⟨before, n, after, heq, hb, _, hnlong, _⟩
      cases before with
      | nil =>
        rw [nil_append, cons.injEq] at heq
        exact hnlong (heq.1 ▸ hlong)
      | cons b before =>
        rw [cons_append, cons.injEq] at heq
        exact ((forall_mem_cons.mp hb).1).elim (fun h => hspecial (heq.1 ▸ h))
          fun h => h (heq.1 ▸ hlong)
    rw [if_neg hlong]
    rcases (hf.1 hspecial kind).eq_or_lost with heq | hlost
    · rw [heq]
      exact hlater _ (.inr hlong) fun _ h => Lost.irrefl (heq ▸ h)
    · exact iff_of_true (hlost.shrinks (rmLoop_shrinks hf.2))
        ⟨[], m, rest, rfl, fun _ h => (nomatch h), hspecial, hlong, hlost⟩

theorem rmLoop_special {r : Nat} (h : ∀ n ∈ entries, Special n) :
    rmLoop f text entries r kind = (false, r, kind) := by
  induction entries with
  | nil => rfl
  | cons n rest ih =>
    rw [forall_mem_cons] at h
    rw [rmLoop, if_pos h.1, ih h.2]

section
variable {fs : Fs} {force recursive : Bool}

theorem resolve_child {entries : List Name} {ok : Bool} (htext : text ≠ [])
    (h : fs.opendirAt kind text = some (entries, ok)) :
    ∀ n ∈ entries, ¬Special n → fs.resolve (text ++ '/' :: n) = fs.resolve text ++ [n] :=
  fun n hn hspecial => fs.resolve_slash htext (fs.slash _ n (opendirAt_names h n hn).1) hspecial

theorem lstat_text {k : Kind} (h : fs.lstat kind text = some k) :
    text ≠ [] ∧ kindAt kind (fs.resolve text) = some k := by
  unfold Fs.lstat at h
  split at h
  · cases h
  rename_i htext
  refine ⟨fun he => htext (.inl he), ?_⟩
  split at h
  · rename_i hk
    split at h <;> cases h
    exact hk
  · exact h

theorem handleRm_shrinks : ∀ {left : Nat} {text : Name} {kind : Kinds},
    Shrinks (fs.resolve text) kind (handleRm fs force recursive left text kind).2 := by
  intro left
  induction left with
  | zero => exact fun {_ _} => Shrinks.refl _ _
  | succ left ih =>
    intro text kind
    rw [handleRm]
    cases hstat : fs.lstat kind text with
    | none => exact Shrinks.refl _ _
    | some k =>
      cases k with
      | file =>
        cases hun : fs.unlinkAt kind text with
        | none => exact Shrinks.refl _ kind
        | some kind' =>
          rw [(unlinkAt_some hun).2]
          exact shrinks_remove kind _
      | dir =>
        dsimp only
        split
        · exact Shrinks.refl _ _
        split
        · exact Shrinks.refl _ _
        cases hopen : fs.opendirAt kind text with
        | none => exact Shrinks.refl _ _
        | some result =>
          obtain ⟨entries, ok⟩ := result
          have hloop := @rmLoop_shrinks text (fs.resolve text) entries
            (handleRm fs force recursive left) 0 kind
            fun n hn hspecial kind => ih.mono (by
              rw [resolve_child (lstat_text hstat).1 hopen n hn hspecial]
              exact prefix_append ..)
          dsimp only
          split
          · exact hloop
          split
          · exact hloop
          · rename_i hrmdir
            rw [(rmdirAt_some hrmdir).2.2.1]
            exact hloop.trans (shrinks_remove _ _)

theorem handleRm_lost : ∀ {left : Nat} {text : Name} {kind : Kinds},
    Lost kind (handleRm fs force true left text kind).2 ↔ Reaches fs kind left text := by
  intro left
  induction left with
  | zero => exact fun {_ _} => iff_of_false Lost.irrefl nofun
  | succ left ih =>
    intro text kind
    rw [handleRm]
    cases hstat : fs.lstat kind text with
    | none =>
      refine iff_of_false Lost.irrefl ?_
      rintro (⟨h, _⟩ | ⟨h, _⟩ | ⟨h, _⟩) <;> cases hstat.symm.trans h
    | some k =>
      cases k with
      | file =>
        cases hun : fs.unlinkAt kind text with
        | none =>
          refine iff_of_false Lost.irrefl ?_
          rintro (⟨_, h⟩ | ⟨h, _⟩ | ⟨h, _⟩)
          · rw [hun] at h
            cases h
          all_goals cases hstat.symm.trans h
        | some kind' =>
          obtain ⟨hfile, rfl⟩ := unlinkAt_some hun
          exact iff_of_true (lost_remove hfile) (.file hstat (by rw [hun]; rfl))
      | dir =>
        simp only [Bool.not_true, Bool.false_eq_true, if_false]
        cases hcheck : checkDirectory fs text with
        | true =>
          refine iff_of_false Lost.irrefl ?_
          rintro (⟨h, _⟩ | ⟨_, h, _⟩ | ⟨_, h, _⟩)
          · cases hstat.symm.trans h
          all_goals cases hcheck.symm.trans h
        | false =>
          simp only [Bool.false_eq_true, if_false]
          cases hopen : fs.opendirAt kind text with
          | none =>
            refine iff_of_false Lost.irrefl ?_
            rintro (⟨h, _⟩ | ⟨_, _, h, _⟩ | ⟨_, _, h, _⟩)
            · cases hstat.symm.trans h
            all_goals cases hopen.symm.trans h
          | some result =>
            obtain ⟨entries, ok⟩ := result
            have hchild : ∀ n ∈ entries, ¬Special n → ∀ kind, Shrinks (fs.resolve text) kind
                (handleRm fs force true left (text ++ '/' :: n) kind).2 :=
              fun n hn hspecial kind => handleRm_shrinks.mono (by
                rw [resolve_child (lstat_text hstat).1 hopen n hn hspecial]
                exact prefix_append ..)
            have hloop := @rmLoop_lost text _ _ _ 0 kind hchild
            have hshrinks := @rmLoop_shrinks text _ _ _ 0 kind hchild
            simp only [ih] at hloop
            have hinside : (∃ before n after, entries = before ++ n :: after ∧
                (∀ m ∈ before, Special m ∨ ¬TooLong text m) ∧ ¬Special n ∧ ¬TooLong text n ∧
                Reaches fs kind left (text ++ '/' :: n)) → Reaches fs kind (left + 1) text := by
              rintro ⟨before, n, after, rfl, hb, hspecial, hlong, h⟩
              exact .inside hstat hcheck hopen hb hspecial hlong h
            dsimp only
            rcases hl : rmLoop (handleRm fs force true left) text entries 0 kind with ⟨stopped, r, kind'⟩
            rw [hl] at hloop hshrinks
            dsimp only at hloop hshrinks ⊢
            constructor
            · intro hlost
              split at hlost
              · exact hinside (hloop.mp hlost)
              rename_i hend
              split at hlost
              · exact hinside (hloop.mp hlost)
              rename_i kind'' hrmdir
              rcases hshrinks.eq_or_lost with rfl | hl'
              · obtain ⟨_, _, _, hempty⟩ := rmdirAt_some hrmdir
                have hok : ok = true := (by simpa using hend : stopped = false ∧ ok = true).2
                refine .empty hstat hcheck (hok ▸ hopen) (fun n hn => ?_) (by rw [hrmdir]; rfl)
                obtain ⟨hname, hlisted⟩ := opendirAt_names hopen n hn
                rcases hempty n hname with h | h
                · exact h
                · simpa [listed, h] using hlisted
              · exact hinside (hloop.mp hl')
            · rintro (⟨h, _⟩ | ⟨_, _, hopen', hspecial, hrmdir⟩ | ⟨_, _, hopen', hb, hspecial, hlong, h⟩)
              · cases hstat.symm.trans h
              · cases hopen.symm.trans hopen'
                rw [rmLoop_special hspecial] at hl
                cases hl
                obtain ⟨kind'', hk⟩ := isSome_iff_exists.mp hrmdir
                rw [hk]
                obtain ⟨hdir, _, rfl, _⟩ := rmdirAt_some hk
                exact lost_remove hdir
              · cases hopen.symm.trans hopen'
                have hlost := hloop.mpr ⟨_, _, _, rfl, hb, hspecial, hlong, h⟩
                split
                · exact hlost
                split
                · exact hlost
                · rename_i hrmdir
                  rw [(rmdirAt_some hrmdir).2.2.1]
                  exact hlost.shrinks (shrinks_remove _ (fs.resolve text))

theorem handleRm_gone {left : Nat} {out : Nat × Kinds}
    (hout : handleRm fs false recursive left text kind = out) (h : out.1 = 0) :
    kindAt out.2 (fs.resolve text) = none := by
  cases left with
  | zero =>
    cases hout
    cases h
  | succ left =>
    rw [handleRm] at hout
    split at hout
    · cases hout
      cases h
    · rename_i hstat
      split at hout
      · rename_i hun
        cases hout
        have hroot : fs.resolve text ≠ [] := by
          intro he
          have := (lstat_text hstat).2
          simp [kindAt, he] at this
        rw [(unlinkAt_some hun).2]
        simp [kindAt, hroot]
      · cases hout
        cases h
    · split at hout
      · cases hout
        cases h
      split at hout
      · cases hout
        cases h
      split at hout
      · cases hout
        cases h
      dsimp only at hout
      split at hout
      · cases hout
        cases h
      split at hout
      · cases hout
        cases h
      · rename_i hrmdir
        cases hout
        obtain ⟨_, hroot, rfl, _⟩ := rmdirAt_some hrmdir
        simp [kindAt, hroot]

end

theorem mustDir_of_dotted {text : Name} (h : Dotted (finalComponent text)) : mustDir text = true := by
  rw [mustDir, decide_eq_true_eq]
  cases htext : text.reverse with
  | nil => rw [lastComponent, htext]; exact .inl rfl
  | cons c rest =>
    by_cases hc : c = '/'
    · exact .inl (by simp [lastComponent, htext, hc])
    · have hfinal : finalComponent text = lastComponent text := by
        rw [finalComponent, htext, dropWhile_cons, if_neg (by simpa using hc), ← htext,
          reverse_reverse]
      exact .inr (hfinal ▸ h)

/-- `rm` keeps its promises unless `rm -r` is given a dot name behind a slash and comes to
something that it can remove. -/
theorem rm_iff (fs : Fs) (force recursive : Bool) (text : Name) (kind : Kinds) :
    Promised fs force text kind (rm fs force recursive text kind) ↔
      ¬(recursive = true ∧ Dotted (finalComponent text) ∧ '/' ∈ text ∧
        Reaches fs kind (0x1000 + 1) text) := by
  constructor
  · rintro h ⟨rfl, hdot, _, hreach⟩
    have hlost : Lost kind (rm fs force true text kind).2 := handleRm_lost.mpr hreach
    exact Lost.irrefl (h.refused (.inl hdot) ▸ hlost)
  intro h
  refine ⟨handleRm_shrinks, fun hno => ?_, fun hcode hforce => ?_⟩
  · refine handleRm_shrinks.eq_or_lost.resolve_right fun hlost => ?_
    have hdir : ∀ k, fs.lstat kind text = some k → k = .dir := by
      intro k hk
      have hkind := (lstat_text hk).2
      rcases hno with hdot | hroot
      · cases k with
        | dir => rfl
        | file =>
          unfold Fs.lstat at hk
          split at hk
          · cases hk
          · simp [hkind, mustDir_of_dotted hdot] at hk
      · simpa [kindAt, hroot, eq_comm] using hkind
    cases recursive with
    | false =>
      rw [handleRm] at hlost
      cases hstat : fs.lstat kind text with
      | none =>
        rw [hstat] at hlost
        exact Lost.irrefl hlost
      | some k =>
        cases hdir k hstat
        rw [hstat] at hlost
        exact Lost.irrefl hlost
    | true =>
      have hreach := handleRm_lost.mp hlost
      have hcheck : checkDirectory fs text = false := by
        rcases hreach with ⟨h, _⟩ | ⟨_, h, _⟩ | ⟨_, h, _⟩
        · cases hdir _ h
        · exact h
        · exact h
      rcases hno with hdot | hroot
      · refine h ⟨rfl, hdot, ?_, hreach⟩
        by_contra hslash
        rw [checkDirectory_of_bare hslash hdot] at hcheck
        cases hcheck
      · rw [checkDirectory_root hroot] at hcheck
        cases hcheck
  · subst hforce
    exact handleRm_gone rfl hcode

def nested : Kinds := fun p =>
  if p = [['a']] ∨ p = [['a'], ['b']] then some .dir else none

def nestedFs : Fs where
  cwd := []
  names p := if p = [] then [['a']] else if p = [['a']] then [['b']] else []
  slash p n hn := by
    split at hn
    · simp only [mem_singleton] at hn
      simp [hn]
    · split at hn
      · simp only [mem_singleton] at hn
        simp [hn]
      · cases hn
  readdir _ := none
  accepts _ := true
  realpath _ := true
  opendir _ := true
  unlink _ := true
  rmdir _ := true

theorem rm_parent : ¬Promised nestedFs false "a/b/..".toList nested
    (rm nestedFs false true "a/b/..".toList nested) := by
  intro h
  have hkept := h.refused (.inl (.inr (by decide)))
  have hgone : (rm nestedFs false true "a/b/..".toList nested).2 [['a']] = none := by decide
  rw [hkept] at hgone
  exact absurd hgone (by decide)

end Dancy.Rm
