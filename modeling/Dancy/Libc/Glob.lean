import Dancy.Lib.Run
import Mathlib.Data.List.GetD

/-!
# The result vector of `glob` (`libc/glob/glob.c`)

`gl_pathv` gives the slot at each place, and a store behind its slots leaves a
mark in `outside`. What `malloc` and `strdup` give is a part of a call.
-/

namespace Dancy.Libc

open Dancy.Lib List Option

/-- A slot of the vector; `malloc` leaves it unset. -/
inductive PathSlot where
  | unset
  | null
  | path (s : List UInt8)
deriving DecidableEq

/-- `glob_t`; `dancy` is the number of slots. -/
structure Glob where
  pathc : Nat
  pathv : Option (Nat → PathSlot)
  (offs dancy : Nat)
  outside : Bool

inductive GlobResult where
  | done
  | noSpace
  | noMatch
deriving DecidableEq

/-- What `malloc` gives, and if `strdup` gives a string. -/
structure GlobMem where
  malloc : Option (Nat → PathSlot)
  strdup : Bool

def Glob.store (g : Glob) (i : Nat) (s : PathSlot) : Glob :=
  { g with
    pathv := g.pathv.map fun v k => if k = i then s else v k
    outside := g.outside || g.pathv.isNone || g.dancy ≤ i }

/-- A vector with more slots; `none` is an error. -/
def Glob.grow (m : GlobMem) (g : Glob) : Option Glob :=
  if g.dancy > 0x10000000 then none
  else
    m.malloc.map fun fresh =>
      { g with
        pathv := some fun k =>
          match g.pathv with
          | some v => if k < g.dancy then v k else fresh k
          | none => fresh k
        dancy := g.dancy + 128 }

def copyOf (m : GlobMem) : Option (List UInt8) → PathSlot
  | some path => if m.strdup then .path path else .null
  | none => .null

def appendGlPathv (m : GlobMem) (path : Option (List UInt8)) (g : Glob) : GlobResult × Glob :=
  match if g.offs + g.pathc + 2 > g.dancy then g.grow m else some g with
  | none => (.noSpace, g)
  | some g =>
    let d := copyOf m path
    let g := (g.store (g.offs + g.pathc) d).store (g.offs + g.pathc + 1) .null
    let g := { g with pathc := g.pathc + if d = .null then 0 else 1 }
    (if path.isSome ∧ d = .null then .noSpace else .done, g)

/-- A call, with the `gl_offs` that the caller left. -/
structure GlobCall where
  pattern : List UInt8
  (append dooffs nocheck : Bool)
  offs : Nat
  (first second : GlobMem)

def GlobCall.reserved (c : GlobCall) : Nat := if c.dooffs then c.offs else 0

/-- The part of `glob` that looks for paths. -/
def globPaths (c : GlobCall) (g : Glob) : GlobResult × Glob :=
  if c.nocheck = false then (.noMatch, g) else appendGlPathv c.second (some c.pattern) g

def glob (c : GlobCall) (g : Glob) : GlobResult × Glob :=
  let g := { g with offs := c.reserved }
  if g.offs > 0x10000000 then (.noSpace, g)
  else if c.append then globPaths c g
  else
    match appendGlPathv c.first none { g with pathc := 0, pathv := none, dancy := 0 } with
    | (.done, g) => globPaths c g
    | (_, g) => (.noSpace, g)

def addedPaths (c : GlobCall) (r : GlobResult) (paths : List (List UInt8)) :
    List (List UInt8) :=
  (if c.append then paths else []) ++ if r = .done then [c.pattern] else []

/-- The vector has the paths in order behind the reserved slots, and then a null
pointer, all of it inside. -/
structure HoldsPaths (g : Glob) (paths : List (List UInt8)) : Prop where
  inside : g.outside = false
  pathc : g.pathc = paths.length
  blank : g.pathv = none → paths = [] ∧ g.dancy = 0
  room : g.pathv ≠ none → g.offs + paths.length + 1 ≤ g.dancy
  path : ∀ v, g.pathv = some v → ∀ k, (h : k < paths.length) → v (g.offs + k) = .path paths[k]
  null : ∀ v, g.pathv = some v → v (g.offs + paths.length) = .null

/-- A vector begins with 126 reserved slots at most, and the number of reserved
slots of a vector does not change. -/
def KeepsOffs (s : Glob × List (List UInt8)) (c : GlobCall) : Prop :=
  if c.append = true ∧ s.1.pathv ≠ none then c.reserved = s.1.offs else c.reserved ≤ 126

def GlobStep (s : Glob × List (List UInt8)) (c : GlobCall) (s' : Glob × List (List UInt8)) :
    Prop :=
  s' = ((glob c s.1).2, addedPaths c (glob c s.1).1 s.2)

variable {g : Glob} {m : GlobMem} {c : GlobCall} {paths : List (List UInt8)} {i : Nat}

theorem store_inside {v : Nat → PathSlot} (hv : g.pathv = some v) (hi : i < g.dancy)
    (s : PathSlot) : g.store i s = { g with pathv := some fun k => if k = i then s else v k } := by
  have hle : decide (g.dancy ≤ i) = false := decide_eq_false (by omega)
  rw [Glob.store, hle, hv, isNone_some, Bool.or_false, Bool.or_false]
  rfl

/-- Room was made, and what was there is there still. -/
structure Roomy (g g' : Glob) (paths : List (List UInt8)) : Prop where
  holds : g'.outside = false ∧ g'.pathc = paths.length ∧ g'.offs = g.offs
  vector : ∃ v, g'.pathv = some v ∧ ∀ k, (h : k < paths.length) → v (g.offs + k) = .path paths[k]
  room : g.offs + paths.length + 2 ≤ g'.dancy

theorem roomy_of_holds (h : HoldsPaths g paths) (hoffs : g.pathv = none → g.offs ≤ 126) {g' : Glob}
    (hroom : (if g.offs + g.pathc + 2 > g.dancy then g.grow m else some g) = some g') :
    Roomy g g' paths := by
  have hpathc := h.pathc
  by_cases hfull : g.offs + g.pathc + 2 > g.dancy
  · rw [if_pos hfull, Glob.grow] at hroom
    by_cases hlarge : g.dancy > 0x10000000
    · rw [if_pos hlarge] at hroom
      cases hroom
    rw [if_neg hlarge, map_eq_some_iff] at hroom
    obtain ⟨fresh, -, rfl⟩ := hroom
    refine ⟨⟨h.inside, h.pathc, rfl⟩, ⟨_, rfl, fun k hk => ?_⟩, ?_⟩
    · cases hv : g.pathv with
      | none =>
        rw [(h.blank hv).1] at hk
        exact absurd hk (Nat.not_lt_zero k)
      | some v =>
        have hin := h.room (by simp [hv])
        dsimp only
        rw [if_pos (by omega)]
        exact h.path v hv k hk
    · dsimp only
      cases hv : g.pathv with
      | none =>
        have hsmall := hoffs hv
        obtain ⟨hnil, hzero⟩ := h.blank hv
        rw [hnil, hzero]
        simp only [length_nil]
        omega
      | some v =>
        have hin := h.room (by simp [hv])
        omega
  · rw [if_neg hfull, some.injEq] at hroom
    subst hroom
    cases hv : g.pathv with
    | none =>
      obtain ⟨-, hzero⟩ := h.blank hv
      omega
    | some v => exact ⟨⟨h.inside, h.pathc, rfl⟩, ⟨v, hv, h.path v hv⟩, by omega⟩

/-- What is behind the last path becomes null, or a path and then null. -/
theorem Roomy.stored {g' : Glob} (h : Roomy g g' paths) (d : PathSlot) (more : List (List UInt8))
    (hd : d = .null ∧ more = [] ∨ ∃ p, d = .path p ∧ more = [p]) :
    HoldsPaths
      { (g'.store (g'.offs + g'.pathc) d).store (g'.offs + g'.pathc + 1) .null with
        pathc := g'.pathc + if d = .null then 0 else 1 } (paths ++ more) := by
  obtain ⟨hinside, hpathc, hoffs⟩ := h.holds
  obtain ⟨v, hv, hpath⟩ := h.vector
  have hroom := h.room
  have hlen : (if d = .null then 0 else 1) = more.length := by
    rcases hd with ⟨rfl, rfl⟩ | ⟨p, rfl, rfl⟩
    · rfl
    · rfl
  have hmore : more.length ≤ 1 := by
    rw [← hlen]
    split <;> omega
  rw [store_inside hv (by omega), store_inside rfl (by dsimp only; omega), hlen]
  rw [hpathc, hoffs]
  refine ⟨hinside, by simp, fun hnone => absurd hnone (by simp), fun _ => ?_, ?_, ?_⟩
  · dsimp only
    rw [length_append]
    omega
  · intro w hw k hk
    obtain rfl := some.inj hw
    rw [length_append] at hk
    dsimp only
    rw [if_neg (by omega)]
    by_cases hlast : k = paths.length
    · subst hlast
      rcases hd with ⟨-, rfl⟩ | ⟨p, rfl, rfl⟩
      · simp at hk
      · simp
    · rw [if_neg (by omega), hpath k (by omega), getElem_append_left (by omega)]
  · intro w hw
    obtain rfl := some.inj hw
    dsimp only
    rcases hd with ⟨rfl, rfl⟩ | ⟨p, rfl, rfl⟩
    · simp
    · rw [length_append, length_singleton, if_pos (add_assoc _ _ _).symm]

/-- `append_gl_pathv` adds the path when it succeeds, and keeps the others. -/
theorem appendGlPathv_holds (h : HoldsPaths g paths) (hoffs : g.pathv = none → g.offs ≤ 126)
    (path : Option (List UInt8)) :
    HoldsPaths (appendGlPathv m path g).2
        (paths ++ if (appendGlPathv m path g).1 = .done then path.toList else []) ∧
      (appendGlPathv m path g).2.offs = g.offs ∧
      ((appendGlPathv m path g).1 = .done → (appendGlPathv m path g).2.pathv ≠ none) := by
  cases hroom : (if g.offs + g.pathc + 2 > g.dancy then g.grow m else some g) with
  | none =>
    simp only [appendGlPathv, hroom]
    rw [if_neg (by simp), append_nil]
    exact ⟨h, trivial, fun h => absurd h (by simp)⟩
  | some g' =>
    have hroomy := roomy_of_holds h hoffs hroom
    have hoffs' := hroomy.holds.2.2
    obtain ⟨v, hv, -⟩ := hroomy.vector
    have hsome : ((g'.store (g'.offs + g'.pathc) (copyOf m path)).store
        (g'.offs + g'.pathc + 1) .null).pathv ≠ none := by
      simp [Glob.store, hv]
    simp only [appendGlPathv, hroom]
    refine ⟨?_, hoffs', fun _ => hsome⟩
    cases path with
    | none => exact hroomy.stored .null _ (Or.inl ⟨rfl, by simp⟩)
    | some p =>
      cases hdup : m.strdup with
      | false =>
        have hcopy : copyOf m (some p) = .null := by simp [copyOf, hdup]
        rw [hcopy]
        exact hroomy.stored .null _ (Or.inl ⟨rfl, by simp⟩)
      | true =>
        have hcopy : copyOf m (some p) = .path p := by simp [copyOf, hdup]
        rw [hcopy]
        exact hroomy.stored (.path p) _ (Or.inr ⟨p, rfl, by simp⟩)

theorem globPaths_holds (h : HoldsPaths g paths) (hoffs : g.pathv = none → g.offs ≤ 126) :
    HoldsPaths (globPaths c g).2
      (paths ++ if (globPaths c g).1 = .done then [c.pattern] else []) := by
  unfold globPaths
  by_cases hcheck : c.nocheck = false
  · rwa [if_pos hcheck, if_neg (by simp), append_nil]
  · rw [if_neg hcheck]
    exact (appendGlPathv_holds h hoffs (some c.pattern)).1

theorem glob_begins (hinside : g.outside = false) (happend : c.append = false)
    (hoffs : c.reserved ≤ 126) :
    HoldsPaths (glob c g).2 (addedPaths c (glob c g).1 paths) := by
  have hblank : HoldsPaths { g with offs := c.reserved, pathc := 0, pathv := none, dancy := 0 }
      [] :=
    ⟨hinside, rfl, fun _ => ⟨rfl, rfl⟩, fun h => absurd rfl h, fun v hv => absurd hv (by simp),
      fun v hv => absurd hv (by simp)⟩
  obtain ⟨hholds, hkept, hvector⟩ :=
    appendGlPathv_holds hblank (fun _ => hoffs) none
  simp only [glob, happend, addedPaths, Bool.false_eq_true, if_false]
  rw [if_neg (by omega), nil_append]
  cases hfirst : appendGlPathv c.first none
      { g with offs := c.reserved, pathc := 0, pathv := none, dancy := 0 } with
  | mk r g' =>
    rw [hfirst] at hholds hkept hvector
    cases r with
    | done =>
      have hpaths := globPaths_holds (c := c) hholds fun hnone => absurd hnone (hvector rfl)
      simpa using hpaths
    | noSpace | noMatch => simpa using hholds

theorem glob_holds (h : HoldsPaths g paths) (hoffs : KeepsOffs (g, paths) c) :
    HoldsPaths (glob c g).2 (addedPaths c (glob c g).1 paths) := by
  by_cases happend : c.append = true
  · have hsame : HoldsPaths { g with offs := c.reserved } paths := by
      by_cases hvector : g.pathv = none
      · exact ⟨h.inside, h.pathc, h.blank, fun hne => absurd hvector hne,
          fun v hv => absurd (hvector.symm.trans hv) (by simp),
          fun v hv => absurd (hvector.symm.trans hv) (by simp)⟩
      · rw [KeepsOffs, if_pos ⟨happend, hvector⟩] at hoffs
        rwa [hoffs]
    have hsmall : g.pathv = none → c.reserved ≤ 126 := by
      intro hvector
      rwa [KeepsOffs, if_neg (fun hand => hand.2 hvector)] at hoffs
    simp only [glob, happend, addedPaths, if_true]
    by_cases hlarge : c.reserved > 0x10000000
    · rw [if_pos hlarge, if_neg (by simp), append_nil]
      exact hsame
    · rw [if_neg hlarge]
      exact globPaths_holds hsame hsmall
  · rw [KeepsOffs, if_neg (fun hand => happend hand.1)] at hoffs
    exact glob_begins h.inside (by simpa using happend) hoffs

/-- Over any run that keeps the number of reserved slots, the vector holds the
paths that were added. -/
theorem glob_run_holds {cs : List GlobCall} {s s' : Glob × List (List UInt8)}
    (hinside : g.outside = false) (happend : c.append = false) (hoffs : KeepsOffs (g, paths) c)
    (hfirst : GlobStep (g, paths) c s) (hrun : Run (Guarded KeepsOffs GlobStep) s cs s') :
    HoldsPaths s'.1 s'.2 := by
  have hbegun : HoldsPaths s.1 s.2 := by
    rw [KeepsOffs, if_neg (fun hand => absurd hand.1 (by simp [happend]))] at hoffs
    rw [hfirst]
    exact glob_begins hinside happend hoffs
  refine hrun.invariant (I := fun s => HoldsPaths s.1 s.2) (fun s a s' hs hstep => ?_) hbegun
  rw [hstep.2]
  exact glob_holds hs hstep.1

def zeroGlob : Glob := ⟨0, none, 0, 0, false⟩

/-- A call with `GLOB_DOOFFS` and `GLOB_NOCHECK`. -/
def dooffsCall (append : Bool) (offs : Nat) : GlobCall where
  pattern := [42]
  append := append
  dooffs := true
  nocheck := true
  offs := offs
  first := ⟨some fun _ => .unset, true⟩
  second := ⟨some fun _ => .unset, true⟩

/-- Two paths behind three slots. -/
theorem glob_run_holds_three : ∃ s s', GlobStep (zeroGlob, []) (dooffsCall false 3) s ∧
    GlobStep s (dooffsCall true 3) s' ∧ s'.2 = [[42], [42]] ∧ HoldsPaths s'.1 s'.2 := by
  have hkeeps : KeepsOffs ((glob (dooffsCall false 3) zeroGlob).2, [[42]]) (dooffsCall true 3) := by
    rw [KeepsOffs, if_pos ⟨rfl, isSome_iff_ne_none.mp rfl⟩]
    rfl
  have hstep : GlobStep ((glob (dooffsCall false 3) zeroGlob).2, [[42]]) (dooffsCall true 3)
      ((glob (dooffsCall true 3) (glob (dooffsCall false 3) zeroGlob).2).2, [[42], [42]]) := rfl
  have hfirst : GlobStep (zeroGlob, []) (dooffsCall false 3)
      ((glob (dooffsCall false 3) zeroGlob).2, [[42]]) := rfl
  have hoffs : KeepsOffs (zeroGlob, []) (dooffsCall false 3) := by
    rw [KeepsOffs, if_neg (fun hand => absurd hand.1 (by decide))]
    decide
  exact ⟨_, _, hfirst, hstep, rfl,
    glob_run_holds rfl rfl hoffs hfirst (Run.single ⟨hkeeps, hstep⟩)⟩

/-- With 200 reserved slots the first store is behind the vector. -/
theorem glob_offs_outside : ∃ c : GlobCall, c.append = false ∧ c.reserved ≤ 0x10000000 ∧
    (glob c zeroGlob).2.outside = true :=
  ⟨dooffsCall false 200, rfl, by decide, rfl⟩

end Dancy.Libc
