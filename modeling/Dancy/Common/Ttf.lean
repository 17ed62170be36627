import Dancy.Lib.Bytes
import Mathlib.Data.List.Infix

/-!
# Opening a font (`common/ttf.c`)

Every read is checked: `none` is a read outside of the file, or by a handler
outside of its table. What `malloc` answers comes from outside. A handler
returns 0 or 1 as in the source.
-/

namespace Dancy.Common.Ttf

open Lib Option List

structure Table where
  data : Bytes
  size : Nat

/-- `BE16` of the bytes at `i` -/
def be16 (b : Bytes) (i : Nat) : Nat := 2 ^ 8 * (b i).toNat + (b (i + 1)).toNat

/-- `BE32` of the bytes at `i` -/
def be32 (b : Bytes) (i : Nat) : Nat := 2 ^ 16 * be16 b i + be16 b (i + 2)

def Table.be16? (t : Table) (i : Nat) : Option Nat := if i + 2 ≤ t.size then some (be16 t.data i) else none

def Table.be32? (t : Table) (i : Nat) : Option Nat := if i + 4 ≤ t.size then some (be32 t.data i) else none

/-- `a - b` of two sizes, which may wrap. -/
def sizeSub (a b : Nat) : Nat := (a + 2 ^ 64 - b) % 2 ^ 64

def uintMax : Nat := 2 ^ 32 - 1

/-- A glyph; `data` is its place in the copy of the `glyf` table. -/
structure Glyph where
  (codePnt locaIdx advWidth size : Nat)
  data : Option Nat

/-- The instance. The list has `glyph_entries` glyphs. -/
structure TtfInstance where
  glyphs : List Glyph
  (glyf kern : Option Table)
  (glyfSize maxpGlyphs : Nat)

/-- Which calls of `malloc` succeed. -/
structure Mallocs where
  (cmapArray glyphArray glyf kern : Bool)

def handleHead (ttf : TtfInstance) (t : Table) : Option (Nat × TtfInstance) :=
  if t.size ≠ 54 then some (1, ttf)
  else do
    let units ← t.be16? 18
    let xmin ← t.be16? 36
    let ymin ← t.be16? 38
    let xmax ← t.be16? 40
    let ymax ← t.be16? 42
    let format ← t.be16? 50
    if units ≠ 2048 then return (1, ttf)
    else if xmin > xmax ∨ xmax > 2048 then return (1, ttf)
    else if (ymin + 512) % 2 ^ 16 > (ymax + 512) % 2 ^ 16 ∨ (ymax + 512) % 2 ^ 16 > 2048 then return (1, ttf)
    else if format ≠ 1 then return (1, ttf)
    else return (0, ttf)

def handleMaxp (ttf : TtfInstance) (t : Table) : Option (Nat × TtfInstance) :=
  (if t.size = 32 then t.be16? 4 else some 0).map fun glyphs =>
    (if glyphs ≠ 0 then 0 else 1, { ttf with maxpGlyphs := glyphs })

def handleHhea (ttf : TtfInstance) (t : Table) : Option (Nat × TtfInstance) :=
  if t.size ≠ 36 then some (1, ttf)
  else (t.be16? 34).map fun n => (if n ≠ ttf.maxpGlyphs then 1 else 0, ttf)

/-! ## `cmap` -/

/-- The first Unicode record with a subtable of format 12. -/
def findSubtable (t : Table) : (left i : Nat) → Option (Except Unit (Option Nat))
  | 0, _ => some (.ok none)
  | left + 1, i =>
    (t.be32? (i * 8 + 4 + 4)).bind fun off =>
      if off > sizeSub t.size 4 then some (.error ())
      else
        (t.be16? (i * 8 + 4)).bind fun platform =>
          if platform ≠ 0 then findSubtable t left (i + 1)
          else
            (t.be16? off).bind fun format =>
              if format = 12 then some (.ok (some off)) else findSubtable t left (i + 1)

def countPoints (t : Table) (subtable : Nat) : (left i points : Nat) → Option (Except Unit Nat)
  | 0, _, points => some (.ok points)
  | left + 1, i, points =>
    (t.be32? (subtable + (i * 12 + 16))).bind fun t1 =>
      (t.be32? (subtable + (i * 12 + 16) + 4)).bind fun t2 =>
        if t1 > t2 then some (.error ())
        else
          let add := (t2 - t1 + 1) % 2 ^ 32
          if ¬ points < uintMax - add then some (.error ())
          else countPoints t subtable left (i + 1) (points + add)

/-- `for (c = t1; c <= t2; c++)`, with `room` places left in the array: the points,
and the places that are left afterwards. -/
def expandGroup (maxpGlyphs t2 : Nat) : (room c glyphIdx : Nat) → Except Unit (List (Nat × Nat) × Nat)
  | 0, c, _ => if t2 < c then .ok ([], 0) else .error ()
  | room + 1, c, glyphIdx =>
    if t2 < c then .ok ([], room + 1)
    else if glyphIdx ≥ maxpGlyphs then .error ()
    else
      (expandGroup maxpGlyphs t2 room ((c + 1) % 2 ^ 32) (glyphIdx + 1)).map fun r =>
        ((c, glyphIdx) :: r.1, r.2)

def expandGroups (t : Table) (subtable maxpGlyphs : Nat) :
    (left i room : Nat) → Option (Except Unit (List (Nat × Nat) × Nat))
  | 0, _, room => some (.ok ([], room))
  | left + 1, i, room =>
    (t.be32? (subtable + (i * 12 + 16))).bind fun t1 =>
      (t.be32? (subtable + (i * 12 + 16) + 4)).bind fun t2 =>
        (t.be32? (subtable + (i * 12 + 16) + 8)).bind fun glyphIdx =>
          match expandGroup maxpGlyphs t2 room t1 glyphIdx with
          | .error _ => some (.error ())
          | .ok first =>
            (expandGroups t subtable maxpGlyphs left (i + 1) first.2).map fun r =>
              r.map fun rest => (first.1 ++ rest.1, rest.2)

/-- The checks of a subtable: the number of its groups. -/
def subtableGroups (t : Table) (offset : Nat) : Option (Except Unit Nat) :=
  (t.be16? (offset + 2)).bind fun version =>
    if version ≠ 0 then some (.error ())
    else if offset > sizeSub t.size 16 then some (.error ())
    else
      (t.be32? (offset + 4)).bind fun len =>
        if len < 16 ∨ len > t.size - offset then some (.error ())
        else
          (t.be32? (offset + 12)).map fun groups =>
            if groups = 0 ∨ (len - 16) / 12 < groups then .error () else .ok groups

/-- The code points of a subtable with their glyphs. -/
def cmapPoints (m : Mallocs) (maxpGlyphs : Nat) (t : Table) (offset : Nat) :
    Option (Except Unit (List (Nat × Nat))) :=
  (subtableGroups t offset).bind fun r =>
    match r with
    | .error _ => some (.error ())
    | .ok groups =>
      (countPoints t offset groups 0 0).bind fun r =>
        match r with
        | .error _ => some (.error ())
        | .ok points =>
          if points = 0 ∨ points > 0x10FFFF then some (.error ())
          else if ¬ m.cmapArray then some (.error ())
          else
            (expandGroups t offset maxpGlyphs groups 0 points).map fun r =>
              r.bind fun all => if all.2 ≠ 0 then .error () else .ok all.1

/-- The glyphs: one without a code point, and one for each point. -/
def glyphArray (points : List (Nat × Nat)) : List Glyph :=
  ⟨0, 0, 0, 0, none⟩ :: points.map fun p => ⟨p.1, p.2, 0, 0, none⟩

def handleCmap (m : Mallocs) (ttf : TtfInstance) (t : Table) : Option (Nat × TtfInstance) :=
  (t.be16? 2).bind fun val =>
    if t.size < val * 8 + 4 then some (1, ttf)
    else
      (findSubtable t val 0).bind fun r =>
        match r with
        | .error _ => some (1, ttf)
        | .ok none => some (1, ttf)
        | .ok (some offset) =>
          (cmapPoints m ttf.maxpGlyphs t offset).map fun r =>
            match r with
            | .error _ => (1, ttf)
            | .ok points => if ¬ m.glyphArray then (1, ttf) else (0, { ttf with glyphs := glyphArray points })

def handleGlyf (m : Mallocs) (ttf : TtfInstance) (t : Table) : Option (Nat × TtfInstance) :=
  if t.size = 0 ∨ ¬ m.glyf then some (1, ttf)
  else some (0, { ttf with glyf := some t, glyfSize := t.size })

def locaLoop (t : Table) (locaEntries glyfSize : Nat) : List Glyph → Option (Except Unit (List Glyph))
  | [] => some (.ok [])
  | g :: glyphs =>
    if locaEntries < g.locaIdx + 1 then some (.error ())
    else
      (t.be32? (g.locaIdx * 4)).bind fun t1 =>
        (t.be32? (g.locaIdx * 4 + 4)).bind fun t2 =>
          if t1 > t2 then some (.error ())
          else if t2 > glyfSize then some (.error ())
          else
            (locaLoop t locaEntries glyfSize glyphs).map fun r =>
              r.map fun rest => { g with data := some t1, size := t2 - t1 } :: rest

def handleLoca (ttf : TtfInstance) (t : Table) : Option (Nat × TtfInstance) :=
  if t.size / 4 ≠ ttf.maxpGlyphs + 1 then some (1, ttf)
  else
    (locaLoop t (t.size / 4) ttf.glyfSize ttf.glyphs).map fun r =>
      match r with
      | .error _ => (1, ttf)
      | .ok glyphs => (0, { ttf with glyphs })

def handleKern (m : Mallocs) (ttf : TtfInstance) (t : Table) : Option (Nat × TtfInstance) :=
  if t.size < 18 then some (1, ttf)
  else do
    let version ← t.be16? 0
    let tables ← t.be16? 2
    let subversion ← t.be16? 4
    let subtableSize ← t.be16? 6
    let coverage ← t.be16? 8
    let pairs ← t.be16? 10
    if version ≠ 0 ∨ tables ≠ 1 ∨ subversion ≠ 0 then return (1, ttf)
    else if subtableSize ≠ t.size - 4 ∨ subtableSize < 14 then return (1, ttf)
    else if coverage ≠ 1 then return (1, ttf)
    else if subtableSize ≠ pairs * 6 + 14 then return (1, ttf)
    else if ¬ m.kern then return (1, ttf)
    else return (0, { ttf with kern := some t })

def hmtxLoop (t : Table) (maxpGlyphs : Nat) : List Glyph → Option (Except Unit (List Glyph))
  | [] => some (.ok [])
  | g :: glyphs =>
    if g.locaIdx ≥ maxpGlyphs then some (.error ())
    else
      (t.be16? (g.locaIdx * 4)).bind fun w =>
        (hmtxLoop t maxpGlyphs glyphs).map fun r => r.map fun rest => { g with advWidth := w } :: rest

def handleHmtx (ttf : TtfInstance) (t : Table) : Option (Nat × TtfInstance) :=
  if t.size = 0 ∨ t.size ≠ ttf.maxpGlyphs * 4 then some (1, ttf)
  else
    (hmtxLoop t ttf.maxpGlyphs ttf.glyphs).map fun r =>
      match r with
      | .error _ => (1, ttf)
      | .ok glyphs => (0, { ttf with glyphs })

/-! ## `ttf_open` -/

/-- The tables in the order of `tables[]`. -/
inductive Kind where
  | head
  | maxp
  | hhea
  | cmap
  | glyf
  | loca
  | kern
  | hmtx
deriving DecidableEq

def kinds : List Kind := [.head, .maxp, .hhea, .cmap, .glyf, .loca, .kern, .hmtx]

def Kind.name : Kind → Nat
  | .head => 0x68656164
  | .maxp => 0x6D617870
  | .hhea => 0x68686561
  | .cmap => 0x636D6170
  | .glyf => 0x676C7966
  | .loca => 0x6C6F6361
  | .kern => 0x6B65726E
  | .hmtx => 0x686D7478

def Kind.required : Kind → Nat
  | .kern => 0
  | _ => 1

def Kind.func (m : Mallocs) : Kind → TtfInstance → Table → Option (Nat × TtfInstance)
  | .head => handleHead
  | .maxp => handleMaxp
  | .hhea => handleHhea
  | .cmap => handleCmap m
  | .glyf => handleGlyf m
  | .loca => handleLoca
  | .kern => handleKern m
  | .hmtx => handleHmtx

/-- `for (j = 12; j < dir_end; j++)`: the first place with the name. -/
def search (p : Table) (name : Nat) : (left j : Nat) → Option (Option Nat)
  | 0, _ => some none
  | left + 1, j =>
    (p.be32? j).bind fun v => if v = name then some (some j) else search p name left (j + 1)

inductive Outcome where
  | absent
  | handled (ttf : TtfInstance)
  | returns (code : Nat) (ttf : TtfInstance)

/-- The part of the file that a directory entry names. -/
def Table.part (p : Table) (off len : Nat) : Table := ⟨fun k => p.data (off + k), len⟩

def openTable (m : Mallocs) (p : Table) (dirEnd : Nat) (k : Kind) (ttf : TtfInstance) : Option Outcome :=
  (search p k.name (dirEnd - 12) 12).bind fun found =>
    match found with
    | none => some .absent
    | some j =>
      (p.be32? (j + 8)).bind fun off =>
        (p.be32? (j + 12)).bind fun len =>
          if ¬ off < uintMax - len then some (.returns 1 ttf)
          else if off + len > p.size then some (.returns 1 ttf)
          else
            (k.func m ttf (p.part off len)).map fun r =>
              if r.1 ≠ 0 then .returns 2 r.2 else .handled r.2

/-- The loop over the tables: the code it returns with, or the number of required tables. -/
def openTables (m : Mallocs) (p : Table) (dirEnd : Nat) :
    List Kind → Nat → TtfInstance → Option (Except Nat Nat × TtfInstance)
  | [], handled, ttf => some (.ok handled, ttf)
  | k :: ks, handled, ttf =>
    (openTable m p dirEnd k ttf).bind fun o =>
      match o with
      | .absent => openTables m p dirEnd ks handled ttf
      | .handled ttf => openTables m p dirEnd ks (handled + k.required) ttf
      | .returns code ttf => some (.error code, ttf)

def requiredTables : Nat := 7

def TtfInstance.cleared (ttf : TtfInstance) : TtfInstance := { ttf with glyphs := [], glyf := none, kern := none, glyfSize := 0 }

/-- `BE16(&p[4]) * 16 + 12` -/
def dirEnd (p : Table) : Nat := be16 p.data 4 * 16 + 12

def ttfOpen (m : Mallocs) (ttf : TtfInstance) (p : Table) : Option (Nat × TtfInstance) :=
  let ttf := ttf.cleared
  if p.size < 12 then some (1, ttf)
  else
    (p.be32? 0).bind fun version =>
      (p.be16? 4).bind fun _ =>
        if version ≠ 0x00010000 then some (1, ttf)
        else if p.size < dirEnd p then some (1, ttf)
        else
          (openTables m p (dirEnd p) kinds 0 ttf).map fun r =>
            match r.1 with
            | .error code => (code, { r.2 with glyphs := [] })
            | .ok handled =>
              if handled ≠ requiredTables then (3, { r.2 with glyphs := [] }) else (0, r.2)

variable {m : Mallocs} {p t : Table} {ttf ttf' : TtfInstance}

variable {i : Nat}

theorem be16?_eq (h : i + 2 ≤ t.size) : t.be16? i = some (be16 t.data i) := if_pos h

theorem be32?_eq (h : i + 4 ≤ t.size) : t.be32? i = some (be32 t.data i) := if_pos h

theorem be16?_none (h : t.size < i + 2) : t.be16? i = none := if_neg (by omega)

theorem be32?_none (h : t.size < i + 4) : t.be32? i = none := if_neg (by omega)

theorem sizeSub_eq {a b : Nat} (hb : b ≤ a) (ha : a < 2 ^ 64) : sizeSub a b = a - b := by
  unfold sizeSub
  omega

theorem be16_lt (b : Bytes) (i : Nat) : be16 b i < 2 ^ 16 := by
  have h0 := (b i).toNat_lt
  have h1 := (b (i + 1)).toNat_lt
  unfold be16
  omega

/-! ## The handlers -/

theorem handleHead_inside : handleHead ttf t ≠ none := by
  unfold handleHead
  split
  · simp
  rw [be16?_eq (by omega), be16?_eq (by omega), be16?_eq (by omega), be16?_eq (by omega),
    be16?_eq (by omega), be16?_eq (by omega)]
  simp only [bind_eq_bind, bind_some]
  repeat' split
  all_goals simp

theorem handleMaxp_inside : handleMaxp ttf t ≠ none := by
  unfold handleMaxp
  split
  · rw [be16?_eq (by omega)]
    simp
  · simp

theorem handleHhea_inside : handleHhea ttf t ≠ none := by
  unfold handleHhea
  split
  · simp
  · rw [be16?_eq (by omega)]
    simp

theorem handleGlyf_inside : handleGlyf m ttf t ≠ none := by
  unfold handleGlyf
  split <;> simp

theorem handleKern_inside : handleKern m ttf t ≠ none := by
  unfold handleKern
  split
  · simp
  rw [be16?_eq (by omega), be16?_eq (by omega), be16?_eq (by omega), be16?_eq (by omega),
    be16?_eq (by omega), be16?_eq (by omega)]
  simp only [bind_eq_bind, bind_some]
  repeat' split
  all_goals simp

theorem locaLoop_inside {locaEntries glyfSize : Nat} {glyphs : List Glyph}
    (h : ∀ g ∈ glyphs, g.locaIdx * 4 + 8 ≤ t.size) : locaLoop t locaEntries glyfSize glyphs ≠ none := by
  induction glyphs with
  | nil => simp [locaLoop]
  | cons g glyphs ih =>
    have hg := h g mem_cons_self
    have hrest := ih fun g' hg' => h g' (.tail _ hg')
    rw [locaLoop]
    split
    · simp
    rw [be32?_eq (by omega), be32?_eq (by omega)]
    simp only [bind_some]
    repeat' split
    · simp
    · simp
    · simpa using hrest

theorem handleLoca_inside (h : ∀ g ∈ ttf.glyphs, g.locaIdx < ttf.maxpGlyphs) : handleLoca ttf t ≠ none := by
  unfold handleLoca
  split
  · simp
  · have hloop : locaLoop t (t.size / 4) ttf.glyfSize ttf.glyphs ≠ none :=
      locaLoop_inside fun g hg => by have := h g hg; omega
    simpa using hloop

theorem hmtxLoop_inside {maxpGlyphs : Nat} {glyphs : List Glyph} (hsize : t.size = maxpGlyphs * 4) :
    hmtxLoop t maxpGlyphs glyphs ≠ none := by
  induction glyphs with
  | nil => simp [hmtxLoop]
  | cons g glyphs ih =>
    rw [hmtxLoop]
    split
    · simp
    · rw [be16?_eq (by omega)]
      simpa using ih

theorem handleHmtx_inside : handleHmtx ttf t ≠ none := by
  unfold handleHmtx
  split
  · simp
  · have hloop : hmtxLoop t ttf.maxpGlyphs ttf.glyphs ≠ none := hmtxLoop_inside (by omega)
    simpa using hloop

/-! ## `cmap` -/

theorem be32_lt (b : Bytes) (i : Nat) : be32 b i < 2 ^ 32 := by
  have h0 := be16_lt b i
  have h1 := be16_lt b (i + 2)
  unfold be32
  omega

/-- The header of a `cmap` table is there, and so is that of a subtable that its only record
names, if there is no room for more. -/
def CmapFits (t : Table) : Prop :=
  4 ≤ t.size ∧
    (12 ≤ t.size → t.size < 16 → be16 t.data 2 = 1 → be32 t.data 8 ≤ t.size - 4 → be16 t.data 4 = 0 →
      be16 t.data (be32 t.data 8) = 12 → be16 t.data (be32 t.data 8 + 2) = 0 → be32 t.data 8 + 8 ≤ t.size)

/-- The search for a subtable stays inside; the subtable has room for its first two words. -/
theorem findSubtable_inside (hsize : t.size < 2 ^ 64) :
    ∀ (left i : Nat), (left + i) * 8 + 4 ≤ t.size → findSubtable t left i ≠ none ∧
        ∀ off, findSubtable t left i = some (.ok (some off)) → off + 4 ≤ t.size := by
  intro left
  induction left with
  | zero => simp [findSubtable]
  | succ left ih =>
    intro i hi
    have hrest := ih (i + 1) (by omega)
    rw [findSubtable, be32?_eq (by omega), sizeSub_eq (by omega) hsize]
    simp only [bind_some]
    split
    · simp
    rw [be16?_eq (by omega)]
    simp only [bind_some]
    split
    · exact hrest
    rw [be16?_eq (by omega)]
    simp only [bind_some]
    split
    · refine ⟨by simp, fun off h => ?_⟩
      cases h
      omega
    · exact hrest

theorem countPoints_inside {subtable : Nat} :
    ∀ (left i points : Nat), subtable + (left + i) * 12 + 16 ≤ t.size →
      countPoints t subtable left i points ≠ none := by
  intro left
  induction left with
  | zero => simp [countPoints]
  | succ left ih =>
    intro i points hi
    rw [countPoints, be32?_eq (by omega), be32?_eq (by omega)]
    simp only [bind_some]
    split
    · simp
    split
    · simp
    · exact ih (i + 1) _ (by omega)

theorem expandGroups_inside {subtable maxpGlyphs : Nat} :
    ∀ (left i room : Nat), subtable + (left + i) * 12 + 16 ≤ t.size →
      expandGroups t subtable maxpGlyphs left i room ≠ none := by
  intro left
  induction left with
  | zero => simp [expandGroups]
  | succ left ih =>
    intro i room hi
    rw [expandGroups, be32?_eq (by omega), be32?_eq (by omega), be32?_eq (by omega)]
    simp only [bind_some]
    split
    · simp
    · rename_i first _
      simpa using ih (i + 1) first.2 (by omega)

theorem subtableGroups_ok {offset groups : Nat} (hoff : offset + 4 ≤ t.size)
    (h : subtableGroups t offset = some (.ok groups)) : offset + groups * 12 + 16 ≤ t.size := by
  unfold subtableGroups at h
  rw [be16?_eq (by omega)] at h
  simp only [bind_some] at h
  split at h
  · cases h
  split at h
  · cases h
  cases hlen : t.be32? (offset + 4) with
  | none => rw [hlen] at h; cases h
  | some len =>
    rw [hlen] at h
    simp only [bind_some] at h
    split at h
    · cases h
    cases hg : t.be32? (offset + 12) with
    | none => rw [hg] at h; cases h
    | some g =>
      rw [hg] at h
      simp only [map_some] at h
      split at h
      · cases h
      · cases h
        omega

/-- The header of a subtable stays inside if the table has 16 bytes or the header fits. -/
theorem subtableGroups_inside {offset : Nat} (hsize : t.size < 2 ^ 64) (hoff : offset + 4 ≤ t.size) :
    subtableGroups t offset ≠ none ↔
      (t.size < 16 → be16 t.data (offset + 2) = 0 → offset + 8 ≤ t.size) := by
  unfold subtableGroups
  rw [be16?_eq (by omega)]
  simp only [bind_some]
  by_cases hv : be16 t.data (offset + 2) = 0
  case neg =>
    rw [if_pos hv]
    exact ⟨fun _ _ h => absurd h hv, fun _ => by simp⟩
  rw [if_neg (not_not_intro hv)]
  by_cases h16 : t.size < 16
  · have hwrap : ¬ offset > sizeSub t.size 16 := by
      unfold sizeSub
      omega
    rw [if_neg hwrap]
    by_cases h8 : offset + 8 ≤ t.size
    · rw [be32?_eq (by omega)]
      simp only [bind_some]
      rw [if_pos (by omega)]
      exact ⟨fun _ _ _ => h8, fun _ => by simp⟩
    · rw [be32?_none (by omega)]
      exact ⟨fun h => absurd rfl h, fun h => absurd (h h16 hv) h8⟩
  · rw [sizeSub_eq (by omega) hsize]
    refine ⟨fun _ h => absurd h h16, fun _ => ?_⟩
    split
    · simp
    rw [be32?_eq (by omega)]
    simp only [bind_some]
    split
    · simp
    · rw [be32?_eq (by omega)]
      simp

theorem cmapPoints_inside {maxpGlyphs offset : Nat} (hoff : offset + 4 ≤ t.size) :
    cmapPoints m maxpGlyphs t offset ≠ none ↔ subtableGroups t offset ≠ none := by
  unfold cmapPoints
  cases hg : subtableGroups t offset with
  | none => simp
  | some r =>
    simp only [bind_some]
    cases r with
    | error e => simp
    | ok groups =>
      have hfit := subtableGroups_ok hoff hg
      have hcount := @countPoints_inside t offset groups 0 0 (by omega)
      dsimp only
      cases hc : countPoints t offset groups 0 0 with
      | none => exact absurd hc hcount
      | some r =>
        simp only [bind_some]
        cases r with
        | error e => simp
        | ok points =>
          dsimp only
          have hexpand := @expandGroups_inside t offset maxpGlyphs groups 0 points (by omega)
          split
          · simp
          split
          · simp
          · simpa using hexpand

theorem findSubtable_one {off : Nat} (h12 : 12 ≤ t.size) (hsize : t.size < 2 ^ 64) :
    findSubtable t 1 0 = some (.ok (some off)) ↔
      off = be32 t.data 8 ∧ off ≤ t.size - 4 ∧ be16 t.data 4 = 0 ∧ be16 t.data off = 12 := by
  rw [findSubtable, be32?_eq (by omega), sizeSub_eq (by omega) hsize]
  simp only [bind_some, zero_mul, Nat.reduceAdd]
  by_cases hoff : be32 t.data 8 > t.size - 4
  · rw [if_pos hoff]
    refine ⟨fun h => (by cases h), fun h => ?_⟩
    omega
  rw [if_neg hoff, be16?_eq (by omega)]
  simp only [bind_some]
  by_cases hp : be16 t.data 4 = 0
  case neg =>
    rw [if_pos hp]
    exact ⟨fun h => (by cases h), fun h => absurd h.2.2.1 hp⟩
  rw [if_neg (not_not_intro hp), be16?_eq (by omega)]
  simp only [bind_some]
  by_cases hf : be16 t.data (be32 t.data 8) = 12
  · rw [if_pos hf]
    refine ⟨fun h => ?_, fun h => by rw [h.1]⟩
    cases h
    omega
  · rw [if_neg hf]
    refine ⟨fun h => (by cases h), fun h => ?_⟩
    have hsame := h.2.2.2
    rw [h.1] at hsame
    exact absurd hsame hf

theorem handleCmap_inside (hsize : t.size < 2 ^ 64) : handleCmap m ttf t ≠ none ↔ CmapFits t := by
  unfold handleCmap CmapFits
  by_cases h4 : 4 ≤ t.size
  case neg =>
    rw [be16?_none (by omega)]
    exact ⟨fun h => absurd rfl h, fun h => absurd h.1 h4⟩
  rw [be16?_eq (by omega)]
  simp only [bind_some]
  by_cases hval : t.size < be16 t.data 2 * 8 + 4
  · rw [if_pos hval]
    refine ⟨fun _ => ⟨h4, fun h12 _ hone => ?_⟩, fun _ => by simp⟩
    omega
  rw [if_neg hval]
  obtain ⟨hfind, hoff⟩ := findSubtable_inside hsize (be16 t.data 2) 0 (by omega)
  -- a short table has one record at most
  have hshort (hnone : ∀ off, findSubtable t (be16 t.data 2) 0 ≠ some (.ok (some off))) :
      12 ≤ t.size → t.size < 16 → be16 t.data 2 = 1 → be32 t.data 8 ≤ t.size - 4 → be16 t.data 4 = 0 →
        be16 t.data (be32 t.data 8) = 12 → be16 t.data (be32 t.data 8 + 2) = 0 →
          be32 t.data 8 + 8 ≤ t.size := by
    intro h12 _ hone hle hp hf _
    refine absurd ?_ (hnone (be32 t.data 8))
    rw [hone]
    exact (findSubtable_one h12 hsize).mpr ⟨rfl, hle, hp, hf⟩
  cases hr : findSubtable t (be16 t.data 2) 0 with
  | none => exact absurd hr hfind
  | some r =>
    simp only [bind_some]
    cases r with
    | error e => exact ⟨fun _ => ⟨h4, hshort fun off h => by rw [hr] at h; cases h⟩, fun _ => by simp⟩
    | ok found =>
      cases found with
      | none =>
        exact ⟨fun _ => ⟨h4, hshort fun off h => by rw [hr] at h; cases h⟩, fun _ => by simp⟩
      | some offset =>
        have hin := hoff offset hr
        rw [ne_eq, map_eq_none_iff, ← ne_eq, cmapPoints_inside hin,
          subtableGroups_inside hsize hin]
        constructor
        · refine fun h => ⟨h4, fun h12 h16 hone hle hp hf hv => ?_⟩
          have hsame := (findSubtable_one h12 hsize).mpr ⟨rfl, hle, hp, hf⟩
          rw [← hone, hr] at hsame
          cases hsame
          exact h h16 hv
        intro h h16 hv
        have hval1 : be16 t.data 2 = 1 := by
          have : be16 t.data 2 ≠ 0 := by
            intro hz
            rw [hz] at hr
            cases hr
          omega
        have h12 : 12 ≤ t.size := by omega
        rw [hval1, findSubtable_one h12 hsize] at hr
        obtain ⟨rfl, hle, hp, hf⟩ := hr
        omega

variable {k : Kind} {ks : List Kind}

/-! ## The directory -/

theorem search_some {name j : Nat} : ∀ {left j0 : Nat}, search p name left j0 = some (some j) ↔
    j0 ≤ j ∧ j < j0 + left ∧ j + 4 ≤ p.size ∧ be32 p.data j = name ∧
      ∀ i, j0 ≤ i → i < j → be32 p.data i ≠ name := by
  intro left
  induction left with
  | zero =>
    intro j0
    refine ⟨fun h => (by cases h), fun h => ?_⟩
    omega
  | succ left ih =>
    intro j0
    rw [search]
    by_cases hin : j0 + 4 ≤ p.size
    case neg =>
      rw [be32?_none (by omega)]
      refine ⟨fun h => (by cases h), fun h => ?_⟩
      omega
    rw [be32?_eq hin]
    simp only [bind_some]
    by_cases hv : be32 p.data j0 = name
    · rw [if_pos hv]
      constructor
      · intro h
        cases h
        exact ⟨le_rfl, by omega, hin, hv, fun i hi hlt => by omega⟩
      · rintro ⟨hle, -, -, -, hfirst⟩
        by_cases heq : j0 = j
        · rw [heq]
        · exact absurd hv (hfirst j0 le_rfl (by omega))
    · rw [if_neg hv, ih]
      constructor
      · rintro ⟨hle, hlt, hsize, hname, hfirst⟩
        refine ⟨by omega, by omega, hsize, hname, fun i hi hij => ?_⟩
        by_cases heq : i = j0
        · rwa [heq]
        · exact hfirst i (by omega) hij
      · rintro ⟨hle, hlt, hsize, hname, hfirst⟩
        have hne : j0 ≠ j := by
          intro heq
          rw [heq] at hv
          exact hv hname
        exact ⟨by omega, by omega, hsize, hname, fun i hi => hfirst i (by omega)⟩

theorem search_none {name : Nat} : ∀ {left j0 : Nat}, search p name left j0 = some none ↔
    (∀ i, j0 ≤ i → i < j0 + left → be32 p.data i ≠ name) ∧ (left = 0 ∨ j0 + left + 3 ≤ p.size) := by
  intro left
  induction left with
  | zero =>
    intro j0
    exact ⟨fun _ => ⟨fun i hi hlt => by omega, Or.inl rfl⟩, fun _ => rfl⟩
  | succ left ih =>
    intro j0
    rw [search]
    by_cases hin : j0 + 4 ≤ p.size
    case neg =>
      rw [be32?_none (by omega)]
      refine ⟨fun h => (by cases h), fun h => ?_⟩
      omega
    rw [be32?_eq hin]
    simp only [bind_some]
    by_cases hv : be32 p.data j0 = name
    · rw [if_pos hv]
      exact ⟨fun h => (by cases h), fun h => absurd hv (h.1 j0 le_rfl (by omega))⟩
    rw [if_neg hv, ih]
    constructor
    · rintro ⟨hall, hend⟩
      refine ⟨fun i hi hlt => ?_, by omega⟩
      by_cases heq : i = j0
      · rwa [heq]
      · exact hall i (by omega) (by omega)
    · rintro ⟨hall, hend⟩
      exact ⟨fun i hi hlt => hall i (by omega) (by omega), by omega⟩

/-- The first place of the directory that has the name. -/
def FirstAt (p : Table) (name j : Nat) : Prop :=
  12 ≤ j ∧ j < dirEnd p ∧ be32 p.data j = name ∧ ∀ i, 12 ≤ i → i < j → be32 p.data i ≠ name

/-- What the search for a table and its handler need: the entry that is found ends in the file
and a `cmap` table has its headers, or without an entry the file goes on for three bytes. -/
def TableFits (p : Table) (k : Kind) : Prop :=
  (∃ j, FirstAt p k.name j ∧ j + 16 ≤ p.size ∧
    (k = .cmap → be32 p.data (j + 8) < uintMax - be32 p.data (j + 12) →
      be32 p.data (j + 8) + be32 p.data (j + 12) ≤ p.size →
        CmapFits (p.part (be32 p.data (j + 8)) (be32 p.data (j + 12))))) ∨
  (∀ j, 12 ≤ j → j < dirEnd p → be32 p.data j ≠ k.name) ∧ (dirEnd p = 12 ∨ dirEnd p + 3 ≤ p.size)

theorem func_inside (hk : k ≠ .cmap) (hs : ∀ g ∈ ttf.glyphs, g.locaIdx < ttf.maxpGlyphs) :
    k.func m ttf t ≠ none := by
  cases k with
  | head => exact handleHead_inside
  | maxp => exact handleMaxp_inside
  | hhea => exact handleHhea_inside
  | cmap => exact absurd rfl hk
  | glyf => exact handleGlyf_inside
  | loca => exact handleLoca_inside hs
  | kern => exact handleKern_inside
  | hmtx => exact handleHmtx_inside

theorem dirEnd_ge (p : Table) : 12 ≤ dirEnd p := Nat.le_add_left _ _

theorem openTable_inside (hs : ∀ g ∈ ttf.glyphs, g.locaIdx < ttf.maxpGlyphs) :
    openTable m p (dirEnd p) k ttf ≠ none ↔ TableFits p k := by
  have hdir := dirEnd_ge p
  unfold openTable
  cases hsearch : search p k.name (dirEnd p - 12) 12 with
  | none =>
    refine ⟨fun h => absurd rfl h, fun h => ?_⟩
    rcases h with ⟨j, ⟨h12, hlt, hname, hfirst⟩, hsize, -⟩ | ⟨hall, hfit⟩
    · have hfound : search p k.name (dirEnd p - 12) 12 = some (some j) :=
        search_some.mpr ⟨h12, by omega, by omega, hname, hfirst⟩
      rw [hfound] at hsearch
      cases hsearch
    · have hnone : search p k.name (dirEnd p - 12) 12 = some none :=
        search_none.mpr ⟨fun i hi hlt => hall i hi (by omega), by omega⟩
      rw [hnone] at hsearch
      cases hsearch
  | some found =>
    cases found with
    | none =>
      obtain ⟨hall, hfit⟩ := search_none.mp hsearch
      refine ⟨fun _ => Or.inr ⟨fun j hj hlt => hall j hj (by omega), by omega⟩, fun _ => by simp⟩
    | some j =>
      obtain ⟨h12, hlt, h4, hname, hfirst⟩ := search_some.mp hsearch
      have hat : FirstAt p k.name j := ⟨h12, by omega, hname, hfirst⟩
      have hfits : TableFits p k ↔ j + 16 ≤ p.size ∧
          (k = .cmap → be32 p.data (j + 8) < uintMax - be32 p.data (j + 12) →
            be32 p.data (j + 8) + be32 p.data (j + 12) ≤ p.size →
              CmapFits (p.part (be32 p.data (j + 8)) (be32 p.data (j + 12)))) := by
        constructor
        · rintro (⟨j', ⟨h12', -, hname', hfirst'⟩, h⟩ | ⟨hall, -⟩)
          · have heq : j' = j := by
              rcases Nat.lt_trichotomy j' j with hl | heq | hl
              · exact absurd hname' (hfirst j' h12' hl)
              · exact heq
              · exact absurd hname (hfirst' j h12 hl)
            rwa [heq] at h
          · exact absurd hname (hall j h12 hat.2.1)
        · exact fun h => Or.inl ⟨j, hat, h⟩
      rw [hfits]
      simp only [bind_some]
      by_cases h16 : j + 16 ≤ p.size
      case neg =>
        refine ⟨fun h => absurd ?_ h, fun h => absurd h.1 h16⟩
        cases h8 : p.be32? (j + 8) with
        | none => rfl
        | some off =>
          rw [be32?_none (by omega)]
          rfl
      rw [be32?_eq (by omega), be32?_eq (by omega)]
      simp only [bind_some]
      by_cases hoff : be32 p.data (j + 8) < uintMax - be32 p.data (j + 12)
      case neg =>
        rw [if_pos hoff]
        exact ⟨fun _ => ⟨h16, fun _ h => absurd h hoff⟩, fun _ => by simp⟩
      rw [if_neg (not_not_intro hoff)]
      by_cases hlen : be32 p.data (j + 8) + be32 p.data (j + 12) > p.size
      · rw [if_pos hlen]
        exact ⟨fun _ => ⟨h16, fun _ _ h => absurd h (by omega)⟩, fun _ => by simp⟩
      rw [if_neg hlen, ne_eq, map_eq_none_iff, ← ne_eq]
      by_cases hk : k = .cmap
      · subst hk
        have hlt64 : be32 p.data (j + 12) < 2 ^ 64 := lt_trans (be32_lt _ _) (by decide)
        change handleCmap m ttf _ ≠ none ↔ _
        rw [handleCmap_inside hlt64]
        exact ⟨fun h => ⟨h16, fun _ _ _ => h⟩, fun h => h.2 rfl hoff (by omega)⟩
      · exact ⟨fun _ => ⟨h16, fun h => absurd h hk⟩, fun _ => func_inside hk hs⟩

/-- The loop over `ks` comes to the table `k` in the state `st`. -/
inductive Reaches (m : Mallocs) (p : Table) : List Kind → TtfInstance → Kind → TtfInstance → Prop where
  | here {k ks st} : Reaches m p (k :: ks) st k st
  | absent {k ks st k' st'} : openTable m p (dirEnd p) k st = some .absent →
      Reaches m p ks st k' st' → Reaches m p (k :: ks) st k' st'
  | handled {k ks st st1 k' st'} : openTable m p (dirEnd p) k st = some (.handled st1) →
      Reaches m p ks st1 k' st' → Reaches m p (k :: ks) st k' st'

variable {n maxpGlyphs : Nat}

theorem openTables_inside : openTables m p (dirEnd p) ks n ttf ≠ none ↔
    ∀ k st, Reaches m p ks ttf k st → openTable m p (dirEnd p) k st ≠ none := by
  induction ks generalizing n ttf with
  | nil =>
    rw [openTables]
    exact ⟨fun _ k st h => (by cases h), fun _ => by simp⟩
  | cons k ks ih =>
    rw [openTables]
    cases ho : openTable m p (dirEnd p) k ttf with
    | none =>
      exact ⟨fun h => absurd rfl h, fun h => absurd ho (h k ttf .here)⟩
    | some o =>
      simp only [bind_some]
      have hhere : openTable m p (dirEnd p) k ttf ≠ none := by rw [ho]; simp
      cases o with
      | absent =>
        rw [ih]
        constructor
        · intro h k' st hr
          cases hr with
          | here => exact hhere
          | absent _ hr => exact h k' st hr
          | handled he _ => rw [ho] at he; cases he
        · exact fun h k' st hr => h k' st (.absent ho hr)
      | handled st1 =>
        rw [ih]
        constructor
        · intro h k' st hr
          cases hr with
          | here => exact hhere
          | absent he _ => rw [ho] at he; cases he
          | handled he hr =>
            rw [ho] at he
            cases he
            exact h k' st hr
        · exact fun h k' st hr => h k' st (.handled ho hr)
      | returns code st1 =>
        refine ⟨fun _ k' st hr => ?_, fun _ => by simp⟩
        cases hr with
        | here => exact hhere
        | absent he _ | handled he _ => rw [ho] at he; cases he

/-! ## What the handlers leave -/

theorem expandGroup_spec {t2 : Nat} :
    ∀ {room c idx : Nat} {r : List (Nat × Nat) × Nat}, expandGroup maxpGlyphs t2 room c idx = .ok r →
      (∀ q ∈ r.1, q.2 < maxpGlyphs) ∧ r.1.length + r.2 = room := by
  intro room
  induction room with
  | zero =>
    intro c idx r h
    rw [expandGroup] at h
    split at h
    · cases h
      simp
    · cases h
  | succ room ih =>
    intro c idx r h
    rw [expandGroup] at h
    split at h
    · cases h
      simp
    split at h
    · cases h
    cases hr : expandGroup maxpGlyphs t2 room ((c + 1) % 2 ^ 32) (idx + 1) with
    | error e => rw [hr] at h; cases h
    | ok rest =>
      rw [hr] at h
      cases h
      obtain ⟨hall, hlen⟩ := ih hr
      refine ⟨fun q hq => ?_, by simp only [length_cons]; omega⟩
      rcases mem_cons.mp hq with rfl | hq
      · omega
      · exact hall q hq

theorem expandGroups_spec {subtable : Nat} :
    ∀ {left i room : Nat} {r : List (Nat × Nat) × Nat},
      expandGroups t subtable maxpGlyphs left i room = some (.ok r) →
        (∀ q ∈ r.1, q.2 < maxpGlyphs) ∧ r.1.length + r.2 = room := by
  intro left
  induction left with
  | zero =>
    intro i room r h
    cases h
    simp
  | succ left ih =>
    intro i room r h
    obtain ⟨t1, -, h⟩ := bind_eq_some_iff.mp h
    obtain ⟨t2, -, h⟩ := bind_eq_some_iff.mp h
    obtain ⟨idx, -, h⟩ := bind_eq_some_iff.mp h
    cases hfirst : expandGroup maxpGlyphs t2 room t1 idx with
    | error e => rw [hfirst] at h; cases h
    | ok first =>
      rw [hfirst] at h
      obtain ⟨rest, hrest, h⟩ := map_eq_some_iff.mp h
      cases rest with
      | error e => cases h
      | ok rest =>
        cases h
        obtain ⟨hall, hlen⟩ := expandGroup_spec hfirst
        obtain ⟨hall', hlen'⟩ := ih hrest
        refine ⟨fun q hq => ?_, by simp only [length_append]; omega⟩
        rcases mem_append.mp hq with hq | hq
        · exact hall q hq
        · exact hall' q hq

theorem cmapPoints_spec {offset : Nat} {points : List (Nat × Nat)}
    (h : cmapPoints m maxpGlyphs t offset = some (.ok points)) :
    points ≠ [] ∧ ∀ q ∈ points, q.2 < maxpGlyphs := by
  obtain ⟨r, -, h⟩ := bind_eq_some_iff.mp h
  cases r with
  | error e => cases h
  | ok groups =>
    obtain ⟨r, -, h⟩ := bind_eq_some_iff.mp h
    cases r with
    | error e => cases h
    | ok n =>
      dsimp only at h
      split at h
      · cases h
      split at h
      · cases h
      obtain ⟨r, hr, h⟩ := map_eq_some_iff.mp h
      cases r with
      | error e => cases h
      | ok all =>
        change (if all.2 ≠ 0 then Except.error () else Except.ok all.1) = _ at h
        split at h
        · cases h
        cases h
        obtain ⟨hall, hlen⟩ := expandGroups_spec hr
        refine ⟨fun hnil => ?_, hall⟩
        rw [hnil, length_nil] at hlen
        omega

theorem handleCmap_spec (h : handleCmap m ttf t = some (0, ttf')) :
    ∃ glyphs, ttf' = { ttf with glyphs } ∧ ∀ g ∈ glyphs, g.locaIdx < ttf.maxpGlyphs := by
  obtain ⟨val, -, h⟩ := bind_eq_some_iff.mp h
  split at h
  · cases h
  obtain ⟨r, -, h⟩ := bind_eq_some_iff.mp h
  cases r with
  | error e => cases h
  | ok found =>
    cases found with
    | none => cases h
    | some offset =>
      obtain ⟨r, hr, h⟩ := map_eq_some_iff.mp h
      cases r with
      | error e => cases h
      | ok points =>
        dsimp only at h
        split at h
        · cases h
        cases h
        obtain ⟨hne, hall⟩ := cmapPoints_spec hr
        refine ⟨_, rfl, fun g hg => ?_⟩
        rcases mem_cons.mp hg with rfl | hg
        · obtain ⟨q, hq⟩ := exists_mem_of_ne_nil _ hne
          exact Nat.lt_of_le_of_lt (Nat.zero_le _) (hall q hq)
        · obtain ⟨q, hq, rfl⟩ := mem_map.mp hg
          exact hall q hq

/-- A glyph that points to a range of the copied table. -/
def Glyph.Inside (glyfSize : Nat) (g : Glyph) : Prop := ∃ t1, g.data = some t1 ∧ t1 + g.size ≤ glyfSize

theorem locaLoop_spec {locaEntries glyfSize : Nat} :
    ∀ {glyphs out : List Glyph}, locaLoop t locaEntries glyfSize glyphs = some (.ok out) →
      out.map Glyph.locaIdx = glyphs.map Glyph.locaIdx ∧ ∀ g ∈ out, g.Inside glyfSize := by
  intro glyphs
  induction glyphs with
  | nil =>
    intro out h
    cases h
    simp
  | cons g glyphs ih =>
    intro out h
    rw [locaLoop] at h
    split at h
    · cases h
    obtain ⟨t1, -, h⟩ := bind_eq_some_iff.mp h
    obtain ⟨t2, -, h⟩ := bind_eq_some_iff.mp h
    split at h
    · cases h
    split at h
    · cases h
    obtain ⟨r, hr, h⟩ := map_eq_some_iff.mp h
    cases r with
    | error e => cases h
    | ok rest =>
      cases h
      obtain ⟨hidx, hin⟩ := ih hr
      refine ⟨by simp [hidx], fun g' hg' => ?_⟩
      rcases mem_cons.mp hg' with rfl | hg'
      · exact ⟨t1, rfl, by dsimp only; omega⟩
      · exact hin g' hg'

theorem hmtxLoop_spec :
    ∀ {glyphs out : List Glyph}, hmtxLoop t maxpGlyphs glyphs = some (.ok out) →
      ∀ g ∈ out, ∃ g0 ∈ glyphs, ∃ w, g = { g0 with advWidth := w } := by
  intro glyphs
  induction glyphs with
  | nil =>
    intro out h
    cases h
    simp
  | cons g glyphs ih =>
    intro out h
    rw [hmtxLoop] at h
    split at h
    · cases h
    obtain ⟨w, -, h⟩ := bind_eq_some_iff.mp h
    obtain ⟨r, hr, h⟩ := map_eq_some_iff.mp h
    cases r with
    | error e => cases h
    | ok rest =>
      cases h
      intro g' hg'
      rcases mem_cons.mp hg' with rfl | hg'
      · simp
      · obtain ⟨g0, hg0, w', hw'⟩ := ih hr g' hg'
        exact ⟨g0, mem_cons_of_mem _ hg0, w', hw'⟩

theorem handleHead_spec (h : handleHead ttf t = some (0, ttf')) : ttf' = ttf := by
  unfold handleHead at h
  split at h
  · cases h
  simp only [bind_eq_bind, bind_eq_some_iff] at h
  obtain ⟨units, -, xmin, -, ymin, -, xmax, -, ymax, -, format, -, h⟩ := h
  split_ifs at h
  all_goals cases h
  rfl

theorem handleMaxp_spec (h : handleMaxp ttf t = some (0, ttf')) :
    ∃ maxpGlyphs, ttf' = { ttf with maxpGlyphs } := by
  obtain ⟨glyphs, -, h⟩ := map_eq_some_iff.mp h
  exact ⟨glyphs, (Prod.mk.inj h).2.symm⟩

theorem handleHhea_spec (h : handleHhea ttf t = some (0, ttf')) : ttf' = ttf := by
  unfold handleHhea at h
  split at h
  · cases h
  · obtain ⟨n, -, h⟩ := map_eq_some_iff.mp h
    exact (Prod.mk.inj h).2.symm

theorem handleGlyf_spec (h : handleGlyf m ttf t = some (0, ttf')) :
    ttf' = { ttf with glyf := some t, glyfSize := t.size } := by
  unfold handleGlyf at h
  split at h
  · cases h
  · cases h
    rfl

theorem handleLoca_spec (h : handleLoca ttf t = some (0, ttf')) :
    ∃ glyphs, ttf' = { ttf with glyphs } ∧
      glyphs.map Glyph.locaIdx = ttf.glyphs.map Glyph.locaIdx ∧ ∀ g ∈ glyphs, g.Inside ttf.glyfSize := by
  unfold handleLoca at h
  split at h
  · cases h
  obtain ⟨r, hr, h⟩ := map_eq_some_iff.mp h
  cases r with
  | error e => cases h
  | ok glyphs =>
    cases h
    exact ⟨glyphs, rfl, locaLoop_spec hr⟩

theorem handleKern_spec (h : handleKern m ttf t = some (0, ttf')) : ∃ kern, ttf' = { ttf with kern } := by
  unfold handleKern at h
  split at h
  · cases h
  simp only [bind_eq_bind, bind_eq_some_iff] at h
  obtain ⟨version, -, tables, -, subversion, -, subtableSize, -, coverage, -, pairs, -, h⟩ := h
  split_ifs at h
  all_goals cases h
  simp

theorem handleHmtx_spec (h : handleHmtx ttf t = some (0, ttf')) :
    ∃ glyphs, ttf' = { ttf with glyphs } ∧
      ∀ g ∈ glyphs, ∃ g0 ∈ ttf.glyphs, ∃ w, g = { g0 with advWidth := w } := by
  unfold handleHmtx at h
  split at h
  · cases h
  obtain ⟨r, hr, h⟩ := map_eq_some_iff.mp h
  cases r with
  | error e => cases h
  | ok glyphs =>
    cases h
    exact ⟨glyphs, rfl, hmtxLoop_spec hr⟩

/-! ## Invariant of the loop -/

def need (ks : List Kind) : Nat := (ks.map Kind.required).sum

/-- The tables behind `k`. -/
def Kind.after (k : Kind) : List Kind := (kinds.dropWhile (· ≠ k)).drop 1

theorem after_of_suffix (h : k :: ks <:+ kinds) : ks = k.after := by
  rw [← mem_tails] at h
  simp only [kinds, tails, mem_cons, not_mem_nil, or_false, reduceCtorEq] at h
  rcases h with ⟨rfl, rfl⟩ | ⟨rfl, rfl⟩ | ⟨rfl, rfl⟩ | ⟨rfl, rfl⟩ | ⟨rfl, rfl⟩ | ⟨rfl, rfl⟩ |
    ⟨rfl, rfl⟩ | ⟨rfl, rfl⟩ <;> rfl

/-- The state when the tables `ks` are left and `n` required ones are handled. -/
structure Inv (p : Table) (ks : List Kind) (n : Nat) (st : TtfInstance) : Prop where
  count : n + need ks ≤ 7
  early : .maxp ∈ ks → st.glyphs = []
  sound : ∀ g ∈ st.glyphs, g.locaIdx < st.maxpGlyphs
  copied : .glyf ∉ ks → n + need ks = 7 →
    ∃ off, off + st.glyfSize ≤ p.size ∧ st.glyf = some (p.part off st.glyfSize)
  inside : .loca ∉ ks → n + need ks = 7 → ∀ g ∈ st.glyphs, g.Inside st.glyfSize

theorem need_cons : need (k :: ks) = k.required + need ks := rfl

theorem Inv.absent (h : Inv p (k :: ks) n ttf) : Inv p ks n ttf := by
  have hcount := h.count
  rw [need_cons] at hcount
  refine ⟨by omega, fun hm => h.early (.tail _ hm), h.sound, fun hg hn => ?_,
    fun hl hn => ?_⟩
  · by_cases hk : k = .glyf
    · rw [hk] at hcount
      change n + (1 + need ks) ≤ 7 at hcount
      omega
    · refine h.copied (fun hmem => ?_) (by rw [need_cons]; omega)
      rcases mem_cons.mp hmem with heq | hmem
      · exact hk heq.symm
      · exact hg hmem
  · by_cases hk : k = .loca
    · rw [hk] at hcount
      change n + (1 + need ks) ≤ 7 at hcount
      omega
    · refine h.inside (fun hmem => ?_) (by rw [need_cons]; omega)
      rcases mem_cons.mp hmem with heq | hmem
      · exact hk heq.symm
      · exact hl hmem

theorem Inv.handled {off : Nat} (h : Inv p (k :: ks) n ttf) (hs : k :: ks <:+ kinds)
    (hend : off + t.size ≤ p.size) (ht : t = p.part off t.size)
    (hf : k.func m ttf t = some (0, ttf')) : Inv p ks (n + k.required) ttf' := by
  have hcount := h.count
  have hrest := after_of_suffix hs
  have hcopied := h.copied
  have hinside := h.inside
  have hmem (k' : Kind) (hne : k' ≠ k) (hno : k' ∉ ks) : k' ∉ k :: ks := fun hin =>
    (mem_cons.mp hin).elim hne hno
  subst hrest
  cases k with
  | head =>
    rw [handleHead_spec hf]
    exact ⟨hcount, fun _ => h.early (by decide), h.sound, fun hg => hcopied (hmem _ (by decide) hg),
      fun hl => hinside (hmem _ (by decide) hl)⟩
  | maxp =>
    obtain ⟨glyphs, rfl⟩ := handleMaxp_spec hf
    have hnil := h.early (by decide)
    refine ⟨hcount, fun hm => absurd hm (by decide), fun g hg => ?_,
      fun hg => absurd (by decide) hg, fun hl => absurd (by decide) hl⟩
    rw [hnil] at hg
    cases hg
  | hhea =>
    rw [handleHhea_spec hf]
    exact ⟨hcount, fun hm => absurd hm (by decide), h.sound,
      fun hg => hcopied (hmem _ (by decide) hg), fun hl => hinside (hmem _ (by decide) hl)⟩
  | cmap =>
    obtain ⟨glyphs, rfl, hall⟩ := handleCmap_spec hf
    exact ⟨hcount, fun hm => absurd hm (by decide), hall, fun hg => absurd (by decide) hg,
      fun hl => absurd (by decide) hl⟩
  | glyf =>
    rw [handleGlyf_spec hf]
    exact ⟨hcount, fun hm => absurd hm (by decide), h.sound,
      fun _ _ => ⟨off, hend, congrArg some ht⟩, fun hl => absurd (by decide) hl⟩
  | loca =>
    obtain ⟨glyphs, rfl, hidx, hin⟩ := handleLoca_spec hf
    refine ⟨hcount, fun hm => absurd hm (by decide), fun g hg => ?_,
      fun hg => hcopied (hmem _ (by decide) hg), fun _ _ => hin⟩
    have hmap : g.locaIdx ∈ ttf.glyphs.map Glyph.locaIdx := hidx ▸ mem_map_of_mem hg
    obtain ⟨g0, hg0, heq⟩ := mem_map.mp hmap
    rw [← heq]
    exact h.sound g0 hg0
  | kern =>
    obtain ⟨kern, rfl⟩ := handleKern_spec hf
    exact ⟨hcount, fun hm => absurd hm (by decide), h.sound,
      fun hg => hcopied (hmem _ (by decide) hg), fun hl => hinside (hmem _ (by decide) hl)⟩
  | hmtx =>
    obtain ⟨glyphs, rfl, hall⟩ := handleHmtx_spec hf
    refine ⟨hcount, fun hm => absurd hm (by decide), fun g hg => ?_,
      fun hg => hcopied (hmem _ (by decide) hg), fun hl hn g hg => ?_⟩
    · obtain ⟨g0, hg0, w, rfl⟩ := hall g hg
      exact h.sound g0 hg0
    · obtain ⟨g0, hg0, w, rfl⟩ := hall g hg
      exact hinside (hmem _ (by decide) hl) hn g0 hg0

theorem openTable_handled (h : openTable m p (dirEnd p) k ttf = some (.handled ttf')) :
    ∃ off t, off + t.size ≤ p.size ∧ t = p.part off t.size ∧ k.func m ttf t = some (0, ttf') := by
  obtain ⟨found, -, h⟩ := bind_eq_some_iff.mp h
  cases found with
  | none => cases h
  | some j =>
    obtain ⟨off, -, h⟩ := bind_eq_some_iff.mp h
    obtain ⟨len, -, h⟩ := bind_eq_some_iff.mp h
    split at h
    · cases h
    split at h
    · cases h
    rename_i hend
    obtain ⟨r, hr, h⟩ := map_eq_some_iff.mp h
    split at h
    · cases h
    · rename_i hzero
      cases h
      refine ⟨off, p.part off len, not_lt.mp hend, rfl, ?_⟩
      rw [hr, ← not_not.mp hzero]

theorem Reaches.inv {st : TtfInstance} (h : Reaches m p ks ttf k st) (hs : ks <:+ kinds)
    (hi : Inv p ks n ttf) : ∃ ks' n', Inv p (k :: ks') n' st := by
  induction h generalizing n with
  | here => exact ⟨_, n, hi⟩
  | absent _ _ ih => exact ih ((suffix_cons _ _).trans hs) hi.absent
  | handled he _ ih =>
    obtain ⟨off, t, hend, ht, hf⟩ := openTable_handled he
    exact ih ((suffix_cons _ _).trans hs) (hi.handled hs hend ht hf)

theorem openTables_inv :
    ∀ {ks : List Kind} {n n' : Nat} {ttf ttf' : TtfInstance}, ks <:+ kinds → Inv p ks n ttf →
      openTables m p (dirEnd p) ks n ttf = some (.ok n', ttf') → Inv p [] n' ttf' := by
  intro ks
  induction ks with
  | nil =>
    intro n n' ttf ttf' _ hi h
    cases h
    exact hi
  | cons k ks ih =>
    intro n n' ttf ttf' hs hi h
    have hs' := (suffix_cons k ks).trans hs
    obtain ⟨o, ho, h⟩ := bind_eq_some_iff.mp h
    cases o with
    | absent => exact ih hs' hi.absent h
    | handled st =>
      obtain ⟨off, t, hend, ht, hf⟩ := openTable_handled ho
      exact ih hs' (hi.handled hs hend ht hf) h
    | returns code st => cases h

theorem openTable_code {code : Nat} (h : openTable m p (dirEnd p) k ttf = some (.returns code ttf')) :
    code ≠ 0 := by
  obtain ⟨found, -, h⟩ := bind_eq_some_iff.mp h
  cases found with
  | none => cases h
  | some j =>
    obtain ⟨off, -, h⟩ := bind_eq_some_iff.mp h
    obtain ⟨len, -, h⟩ := bind_eq_some_iff.mp h
    split at h
    · cases h
      decide
    split at h
    · cases h
      decide
    obtain ⟨r, -, h⟩ := map_eq_some_iff.mp h
    split at h
    · cases h
      decide
    · cases h

theorem openTables_code : ∀ {ks : List Kind} {n code : Nat} {ttf ttf' : TtfInstance},
    openTables m p (dirEnd p) ks n ttf = some (.error code, ttf') → code ≠ 0 := by
  intro ks
  induction ks with
  | nil => intro n code ttf ttf' h; cases h
  | cons k ks ih =>
    intro n code ttf ttf' h
    obtain ⟨o, ho, h⟩ := bind_eq_some_iff.mp h
    cases o with
    | absent | handled st => exact ih h
    | returns code' st =>
      cases h
      exact openTable_code ho

theorem Inv.start (p : Table) (ttf : TtfInstance) : Inv p kinds 0 ttf.cleared where
  count := by decide
  early _ := rfl
  sound g hg := by cases hg
  copied h := absurd (by decide) h
  inside h := absurd (by decide) h

/-- What is asked of a call: it reads inside the file and the tables, and if it returns 0 the
`glyf` table is a copy of a part of the file and every glyph is a range of it. -/
def Opens (m : Mallocs) (ttf : TtfInstance) (p : Table) : Prop :=
  ∃ r st, ttfOpen m ttf p = some (r, st) ∧
    (r = 0 → (∃ off, off + st.glyfSize ≤ p.size ∧ st.glyf = some (p.part off st.glyfSize)) ∧
      ∀ g ∈ st.glyphs, g.Inside st.glyfSize)

/-- What the file must be like: every table that the loop comes to fits. -/
def FontFits (m : Mallocs) (ttf : TtfInstance) (p : Table) : Prop :=
  12 ≤ p.size → be32 p.data 0 = 0x00010000 → dirEnd p ≤ p.size →
    ∀ k st, Reaches m p kinds ttf.cleared k st → TableFits p k

/-- A call is safe if and only if the directory and the `cmap` table fit. -/
theorem ttfOpen_iff (m : Mallocs) (ttf : TtfInstance) (p : Table) : Opens m ttf p ↔ FontFits m ttf p := by
  unfold Opens FontFits ttfOpen
  dsimp only
  by_cases h12 : 12 ≤ p.size
  case neg =>
    rw [if_pos (by omega)]
    exact ⟨fun _ h => absurd h h12, fun _ => ⟨1, _, rfl, fun h => by cases h⟩⟩
  rw [if_neg (by omega), be32?_eq (by omega), be16?_eq (by omega)]
  simp only [bind_some]
  by_cases hv : be32 p.data 0 = 0x00010000
  case neg =>
    rw [if_pos hv]
    exact ⟨fun _ _ h => absurd h hv, fun _ => ⟨1, _, rfl, fun h => by cases h⟩⟩
  rw [if_neg (not_not_intro hv)]
  by_cases hd : dirEnd p ≤ p.size
  case neg =>
    rw [if_pos (by omega)]
    exact ⟨fun _ _ _ h => absurd h hd, fun _ => ⟨1, _, rfl, fun h => by cases h⟩⟩
  rw [if_neg (by omega)]
  have hfits : (∀ k st, Reaches m p kinds ttf.cleared k st → TableFits p k) ↔
      openTables m p (dirEnd p) kinds 0 ttf.cleared ≠ none := by
    rw [openTables_inside]
    refine forall_congr' fun k => forall_congr' fun st => forall_congr' fun hr => ?_
    obtain ⟨ks', n', hinv⟩ := hr.inv (suffix_refl _) (Inv.start p ttf)
    exact (openTable_inside hinv.sound).symm
  constructor
  · rintro ⟨r, st, h, -⟩ - - -
    rw [hfits]
    intro hnone
    rw [hnone] at h
    cases h
  intro h
  obtain ⟨⟨code, st⟩, hrun⟩ := ne_none_iff_exists'.mp (hfits.mp (h h12 hv hd))
  rw [hrun]
  cases code with
  | error e =>
    exact ⟨e, _, rfl, fun he => absurd he (openTables_code hrun)⟩
  | ok n =>
    by_cases hn : n = requiredTables
    case neg =>
      refine ⟨3, { st with glyphs := [] }, ?_, fun h => by cases h⟩
      simp [hn]
    refine ⟨0, st, by simp [hn], fun _ => ?_⟩
    have hinv := openTables_inv (suffix_refl _) (Inv.start p ttf) hrun
    have hcount : n + need [] = 7 := hn
    exact ⟨hinv.copied (by simp) hcount, hinv.inside (by simp) hcount⟩

/-- A file with an empty entry as its directory, and nothing behind it. -/
def shortFont : Table := ⟨fun i => if i = 1 ∨ i = 5 then 1 else 0, 28⟩

/-- The search for `head` reads the bytes 25 to 28 of the 28. -/
theorem ttfOpen_short :
    ¬ Opens ⟨true, true, true, true⟩ ⟨[], none, none, 0, 0⟩ shortFont := by
  rintro ⟨r, st, h, -⟩
  have hnone : ttfOpen ⟨true, true, true, true⟩ ⟨[], none, none, 0, 0⟩ shortFont = none := rfl
  rw [hnone] at h
  cases h

end Dancy.Common.Ttf
