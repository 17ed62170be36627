import Dancy.Link.Section

/-!
# Libraries (`dy-link/lib.c`)

The objects of the libraries are behind those of the command line, and their
type is 1 instead of 0. The objects that nothing refers to are taken out again;
what is left in their place has no symbols and the type -1.
-/

namespace Dancy.Link

open Dancy.Lib List Option

/-! ## External symbols -/

/-- `struct lib_symbol`. -/
structure LibSymbol where
  name : List UInt8
  ofile : Nat
  sec : Int

/-- The characters from `i` on that are in front of a zero. -/
def cstring (dat : Bytes) (i n : Nat) : List UInt8 :=
  ((range n).map fun k => dat (i + k)).takeWhile (· ≠ 0)

def OFile.offset (f : OFile) : Nat := f.data.dword 8

def OFile.symbols (f : OFile) : Nat := f.data.dword 12

/-- The name is in the symbol, or in the string table behind the symbols. -/
def symbolName (f : OFile) (sym : Nat) : List UInt8 :=
  if f.data.dword sym ≠ 0 then cstring f.data sym 8
  else
    let str := f.offset + f.symbols * 18 + f.data.dword (sym + 4)
    cstring f.data str (f.size - str)

def readSymbol (f : OFile) (mode i sym : Nat) : List LibSymbol :=
  let s : LibSymbol := ⟨symbolName f sym, i, f.data.word (sym + 12)⟩
  if mode = 0 ∧ s.sec = 0 then []
  else if f.data (sym + 16) ≠ 2 ∨ s.name = [] then []
  else [s]

/-- The records of a file from the `j`-th on; further records of a symbol are
stepped over. Each round takes a record at least. -/
def symbolLoop (f : OFile) (mode i : Nat) : (rounds j : Nat) → List LibSymbol
  | 0, _ => []
  | rounds + 1, j =>
    if j < f.symbols then
      let sym := f.offset + j * 18
      readSymbol f mode i sym ++ symbolLoop f mode i rounds (j + (f.data (sym + 17)).toNat + 1)
    else []

/-- The external symbols of the `i`-th file. -/
def fileSymbols (f : OFile) (mode i : Nat) : List LibSymbol := symbolLoop f mode i f.symbols 0

/-- The files from the `i`-th on. -/
def ofileLoop (mode : Nat) : List OFile → (i : Nat) → List LibSymbol
  | [], _ => []
  | f :: files, i => fileSymbols f mode i ++ ofileLoop mode files (i + 1)

/-- The first loop: all records, if they are not too many. -/
def countSymbols : List OFile → (total : Nat) → Option Nat
  | [], total => some total
  | f :: files, total =>
    if total > 2 ^ 32 - 1 - f.symbols then none
    else if total + f.symbols > 0x00FFFFFF then none
    else countSymbols files (total + f.symbols)

/-- `read_external_symbols`; `malloc n` tells whether the `n`-th allocation succeeds. -/
def readExternalSymbols (files : List OFile) (mode : Nat) (malloc : Nat → Bool) :
    Option (List LibSymbol) :=
  match countSymbols files 0 with
  | none => none
  | some _ => if malloc 0 then some (ofileLoop mode files 0) else none

/-! ## The relevant objects -/

/-- The architecture of the first object that has one. -/
def archType : List OFile → Nat
  | [] => 0
  | f :: files => if f.data.word 0 ≠ 0 then f.data.word 0 else archType files

/-- `___start`, or `__start` without the first underscore. -/
def startName : List UInt8 := [95, 95, 115, 116, 97, 114, 116]

def IsStart (arch : Nat) (name : List UInt8) : Prop :=
  arch = 0x014C ∧ name = 95 :: startName ∨ arch = 0x8664 ∧ name = startName

instance (arch : Nat) (name : List UInt8) : Decidable (IsStart arch name) :=
  inferInstanceAs (Decidable (_ ∨ _))

def setType (files : List OFile) (k : Nat) (type : Int) : List OFile :=
  files.modify k fun f => { f with type := type }

def fileType (files : List OFile) (k : Nat) : Int := (files[k]?.map OFile.type).getD (-1)

/-- The loop over the symbols that includes the start symbols, and whether it
has found one. -/
def startLoop (arch : Nat) : List LibSymbol → List OFile → Bool → List OFile × Bool
  | [], files, found => (files, found)
  | s :: ls, files, found =>
    if s.sec = 0 then startLoop arch ls files found
    else if IsStart arch s.name then startLoop arch ls (setType files s.ofile 0) true
    else startLoop arch ls files found

/-- The inner loop: the file of the first symbol from `j` on that defines the
name of the `i`-th. -/
def findDefiner (name : List UInt8) (i : Nat) : List LibSymbol → (j : Nat) → Option Nat
  | [], _ => none
  | s :: ls, j =>
    if s.sec ≤ 0 ∨ i = j then findDefiner name i ls (j + 1)
    else if name.head? ≠ s.name.head? then findDefiner name i ls (j + 1)
    else if name ≠ s.name then findDefiner name i ls (j + 1)
    else some s.ofile

/-- What the search for the relevant objects changes. -/
structure Relevant where
  ls : List LibSymbol
  files : List OFile
  state : Bool

/-- The object that defines a symbol is included. -/
def includeDefiner (st : Relevant) (name : List UInt8) (i : Nat) : Relevant :=
  match findDefiner name i st.ls 0 with
  | some k =>
    if fileType st.files k = 1 then { st with files := setType st.files k 0, state := true }
    else st
  | none => st

/-- One round of the loop over the symbols; a reference is looked at once. -/
def refer (st : Relevant) (i : Nat) : Relevant :=
  match st.ls[i]? with
  | none => st
  | some s =>
    if s.sec ≠ 0 then st
    else if fileType st.files s.ofile ≠ 0 then st
    else
      let st := includeDefiner st s.name i
      { st with ls := st.ls.modify i fun s => { s with sec := -1 } }

def referAll (st : Relevant) : Relevant :=
  (range st.ls.length).foldl refer { st with state := false }

/-- The loop that goes on as long as something is included; `none` is a loop
that does not end. -/
def referLoop : (rounds : Nat) → Relevant → Option Relevant
  | 0, _ => none
  | rounds + 1, st =>
    let st := referAll st
    if st.state = false then some st else referLoop rounds st

/-- What takes the place of an object that is not needed. -/
def emptied : OFile := ⟨fun _ => 0, 64, -1⟩

/-- The last loop: whether it succeeds, and the files. -/
def removeLoop (malloc : Nat → Bool) : List OFile → (n : Nat) → Bool × List OFile
  | [], _ => (true, [])
  | f :: files, n =>
    if f.type ≠ 1 then
      let r := removeLoop malloc files n
      (r.1, f :: r.2)
    else if malloc n = false then (false, f :: files)
    else
      let r := removeLoop malloc files (n + 1)
      (r.1, emptied :: r.2)

/-- `lib_set_ofiles`: the returned value and the files; `none` is a loop that
does not end. -/
def libSetOfiles (files : List OFile) (argF : String) (malloc : Nat → Bool) :
    Option (Nat × List OFile) :=
  match readExternalSymbols files 1 malloc with
  | none => some (1, files)
  | some ls =>
    let arch := archType files
    let r := startLoop arch ls files false
    if r.2 = false ∧ argF = "default" then some (1, r.1)
    else
      match referLoop (files.length + 1) ⟨ls, r.1, false⟩ with
      | none => none
      | some st =>
        let r := removeLoop malloc st.files 1
        some (if r.1 then 0 else 1, r.2)

variable {files files' : List OFile} {ls : List LibSymbol} {name : List UInt8}

/-- The object `k` defines the external symbol. -/
def Defines (files : List OFile) (k : Nat) (name : List UInt8) : Prop :=
  ∃ f, files[k]? = some f ∧ ∃ s ∈ fileSymbols f 1 k, s.name = name ∧ s.sec ≠ 0

/-- The external symbol is undefined in the object `k`. -/
def Refers (files : List OFile) (k : Nat) (name : List UInt8) : Prop :=
  ∃ f, files[k]? = some f ∧ ∃ s ∈ fileSymbols f 1 k, s.name = name ∧ s.sec = 0

/-- No object in front of `k` defines the symbol. -/
structure FirstDefiner (files : List OFile) (k : Nat) (name : List UInt8) : Prop where
  defines : Defines files k name
  first : ∀ k' < k, ¬Defines files k' name

inductive Kept (files : List OFile) : Nat → Prop
  | commandLine {k : Nat} {f : OFile} (get : files[k]? = some f) (type : f.type = 0) : Kept files k
  | start {k : Nat} {name : List UInt8} (defines : Defines files k name)
      (start : IsStart (archType files) name) : Kept files k
  | library {i k : Nat} {name : List UInt8} (kept : Kept files i) (refers : Refers files i name)
      (definer : FirstDefiner files k name) : Kept files k

variable {s : LibSymbol}

theorem mem_symbolLoop {f : OFile} {mode i : Nat} : ∀ {rounds j : Nat},
    s ∈ symbolLoop f mode i rounds j → s.ofile = i ∧ 0 ≤ s.sec := by
  intro rounds
  induction rounds with
  | zero => exact fun h => absurd h not_mem_nil
  | succ rounds ih =>
    intro j h
    rw [symbolLoop] at h
    split at h
    · rcases mem_append.mp h with h | h
      · simp only [readSymbol] at h
        split at h
        · cases h
        · split at h
          · exact absurd h not_mem_nil
          · rw [mem_singleton.mp h]
            simp
      · exact ih h
    · exact absurd h not_mem_nil

theorem mem_ofileLoop {mode : Nat} : ∀ {files : List OFile} {i : Nat},
    s ∈ ofileLoop mode files i ↔
      ∃ k f, files[k]? = some f ∧ s.ofile = i + k ∧ s ∈ fileSymbols f mode (i + k) := by
  intro files
  induction files with
  | nil => simp [ofileLoop]
  | cons f files ih =>
    intro i
    rw [ofileLoop, mem_append, ih]
    constructor
    · rintro (h | ⟨k, g, hg, hs, h⟩)
      · exact ⟨0, f, rfl, (mem_symbolLoop h).1, h⟩
      · exact ⟨k + 1, g, hg, by omega, by rwa [add_comm k, ← add_assoc]⟩
    rintro ⟨k, g, hg, hs, h⟩
    cases k with
    | zero =>
      cases hg
      exact .inl h
    | succ k => exact .inr ⟨k, g, hg, by omega, by rwa [add_assoc, add_comm 1]⟩

theorem ofileLoop_sorted (mode : Nat) : ∀ (files : List OFile) (i : Nat),
    (ofileLoop mode files i).Pairwise fun s t => s.ofile ≤ t.ofile := by
  intro files
  induction files with
  | nil => exact fun _ => .nil
  | cons f files ih =>
    intro i
    refine pairwise_append.mpr ⟨?_, ih (i + 1), fun s hs t ht => ?_⟩
    · refine pairwise_of_forall_mem_list fun s hs t ht => ?_
      rw [(mem_symbolLoop hs).1, (mem_symbolLoop ht).1]
    · obtain ⟨k, -, -, hk, -⟩ := mem_ofileLoop.mp ht
      have := (mem_symbolLoop hs).1
      omega

/-- The file of the first symbol that defines the name. -/
def definer (ls : List LibSymbol) (name : List UInt8) : Option Nat :=
  (ls.find? fun s => 0 < s.sec ∧ s.name = name).map LibSymbol.ofile

theorem findDefiner_eq {i : Nat} : ∀ {ls : List LibSymbol} {j : Nat},
    (∀ m s, ls[m]? = some s → j + m = i → s.sec ≤ 0) →
      findDefiner name i ls j = definer ls name := by
  intro ls
  induction ls with
  | nil => exact fun _ => rfl
  | cons s ls ih =>
    intro j h
    have hrest := ih (j := j + 1) fun m t ht hm => h (m + 1) t ht (by omega)
    have hself : i = j → s.sec ≤ 0 := fun he => h 0 s rfl he.symm
    rw [findDefiner, definer, find?_cons]
    by_cases hsec : s.sec ≤ 0
    · rw [if_pos (.inl hsec), hrest, definer]
      simp [Int.not_lt.mpr hsec]
    rw [if_neg (by omega)]
    by_cases hname : s.name = name
    · subst hname
      simp [Int.not_le.mp hsec]
    · rw [if_pos (Ne.symm hname), hrest, definer]
      simp [hname]

theorem defines_iff {k : Nat} : Defines files k name ↔
    ∃ s ∈ ofileLoop 1 files 0, s.ofile = k ∧ s.name = name ∧ 0 < s.sec := by
  constructor
  · rintro ⟨f, hf, s, hs, hname, hsec⟩
    have hof := mem_symbolLoop hs
    exact ⟨s, mem_ofileLoop.mpr ⟨k, f, hf, by omega, by rwa [zero_add]⟩, hof.1, hname,
      by omega⟩
  · rintro ⟨s, hs, hk, hname, hsec⟩
    obtain ⟨k', f, hf, hof, hs⟩ := mem_ofileLoop.mp hs
    rw [zero_add] at hof hs
    obtain rfl : k' = k := by omega
    exact ⟨f, hf, s, hs, hname, by omega⟩

/-- The first symbol that defines a name is in the first object that does. -/
theorem definer_eq_some {k : Nat} :
    definer (ofileLoop 1 files 0) name = some k ↔ FirstDefiner files k name := by
  have hsorted := ofileLoop_sorted 1 files 0
  have hfirst : ∀ k, definer (ofileLoop 1 files 0) name = some k → FirstDefiner files k name := by
    intro k h
    obtain ⟨s, hfind, rfl⟩ := map_eq_some_iff.mp h
    obtain ⟨hs, as, bs, hls, hbefore⟩ := find?_eq_some_iff_append.mp hfind
    rw [decide_eq_true_eq] at hs
    refine ⟨defines_iff.mpr ⟨s, by rw [hls]; simp, rfl, hs.2, hs.1⟩, fun k' hk' hdef => ?_⟩
    obtain ⟨t, ht, rfl, hname, hsec⟩ := defines_iff.mp hdef
    rw [hls] at ht hsorted
    rcases mem_append.mp ht with ht | ht
    · have := hbefore t ht
      simp [hname, hsec] at this
    have hpair := (pairwise_append.mp hsorted).2.1
    rcases mem_cons.mp ht with rfl | ht
    · omega
    · have := (pairwise_cons.mp hpair).1 t ht
      omega
  refine ⟨hfirst k, fun h => ?_⟩
  rcases hd : definer (ofileLoop 1 files 0) name with _ | k'
  · -- there is a symbol that defines the name
    obtain ⟨s, hs, -, hname, hsec⟩ := defines_iff.mp h.defines
    have hnone := find?_eq_none.mp (map_eq_none_iff.mp hd) s hs
    simp [hname, hsec] at hnone
  · have h' := hfirst k' hd
    rcases Nat.lt_trichotomy k k' with hlt | rfl | hlt
    · exact absurd h.defines (h'.first k hlt)
    · rfl
    · exact absurd h'.defines (h.first k' hlt)

/-! ## Types -/

/-- What the callers promise: the objects are from the command line or from
libraries, and a slot of a library that has been read has no symbols. -/
structure Slots (files : List OFile) : Prop where
  type : ∀ f ∈ files, f.type = 0 ∨ f.type = 1 ∨ f.type = -1 ∧ f.symbols = 0

/-- Nothing but the types has been changed, and only objects that are needed
have been included. -/
structure Typed (files files' : List OFile) : Prop where
  length : files'.length = files.length
  get : ∀ k f, files[k]? = some f → ∃ t, files'[k]? = some { f with type := t } ∧
    (t = f.type ∨ t = 0) ∧ (t = 0 → Kept files k)

theorem Typed.refl (files : List OFile) : Typed files files :=
  ⟨rfl, fun _ f hf => ⟨f.type, hf, .inl rfl, fun h => .commandLine hf h⟩⟩

variable {k : Nat} {f : OFile} {st : Relevant}

theorem fileType_eq (h : files[k]? = some f) : fileType files k = f.type := by
  rw [fileType, h]
  rfl

theorem fileType_setType (k k' : Nat) (h : k < files.length) :
    fileType (setType files k 0) k' = if k' = k then 0 else fileType files k' := by
  rw [fileType, setType, getElem?_modify]
  by_cases he : k' = k
  · subst he
    simp [h]
  · rw [if_neg he, fileType]
    simp [Ne.symm he]

theorem Typed.setType (h : Typed files files') (hk : Kept files k) :
    Typed files (setType files' k 0) := by
  refine ⟨(length_modify ..).trans h.length, fun k' f hf => ?_⟩
  obtain ⟨t, ht, htype, hkept⟩ := h.get k' f hf
  rw [Dancy.Link.setType, getElem?_modify, ht]
  by_cases he : k = k'
  · subst he
    exact ⟨0, by simp, .inr rfl, fun _ => hk⟩
  · exact ⟨t, by simp [he], htype, hkept⟩

/-- The objects of libraries that are not included. -/
def libraries (files : List OFile) : Nat := files.countP fun f => f.type = 1

theorem libraries_setType : ∀ {files : List OFile} {k : Nat},
    fileType files k = 1 → libraries (setType files k 0) + 1 = libraries files := by
  intro files
  induction files with
  | nil =>
    intro k h
    simp [fileType] at h
  | cons f files ih =>
    intro k h
    cases k with
    | zero =>
      have hf : f.type = 1 := h
      simp [libraries, setType, hf]
    | succ k =>
      have hrest : libraries (setType files k 0) + 1 = libraries files := ih h
      have hcons : setType (f :: files) (k + 1) 0 = f :: setType files k 0 := rfl
      rw [hcons]
      simp only [libraries, countP_cons] at hrest ⊢
      omega

/-! ## One reference -/

structure Handled (ls : List LibSymbol) (files : List OFile) (s : LibSymbol) : Prop where
  undefined : s.sec = 0
  included : ∀ k, definer ls s.name = some k → fileType files k ≠ 1

/-- The invariant of the search: `ls` are the symbols as they were read. -/
structure RelevantInv (files : List OFile) (ls : List LibSymbol) (st : Relevant) : Prop where
  typed : Typed files st.files
  length : st.ls.length = ls.length
  marks : ∀ (i : Nat) (s : LibSymbol), ls[i]? = some s → st.ls[i]? = some s ∨
    st.ls[i]? = some { s with sec := -1 } ∧ Handled ls st.files s
  roots : ∀ s ∈ ls, s.sec ≠ 0 → IsStart (archType files) s.name → fileType st.files s.ofile = 0

theorem definer_marks : ∀ {as bs : List LibSymbol}, as.length = bs.length →
    (∀ (i : Nat) (s : LibSymbol), bs[i]? = some s → as[i]? = some s ∨
      as[i]? = some { s with sec := -1 } ∧ s.sec = 0) → definer as name = definer bs name := by
  intro as
  induction as with
  | nil =>
    intro bs hlen _
    rw [length_eq_zero_iff.mp hlen.symm]
  | cons a as ih =>
    intro bs hlen hget
    cases bs with
    | nil => cases hlen
    | cons b bs =>
      have hrest := ih (Nat.succ.inj hlen) fun i s hs => hget (i + 1) s hs
      simp only [definer, find?_cons] at hrest ⊢
      rcases hget 0 b rfl with ha | ⟨ha, hsec⟩
      · cases ha
        split
        · rfl
        · exact hrest
      · cases ha
        simpa [hsec] using hrest

theorem RelevantInv.definer_eq (h : RelevantInv files ls st) :
    definer st.ls name = definer ls name :=
  definer_marks h.length fun i s hs => (h.marks i s hs).imp_right fun h => ⟨h.1, h.2.undefined⟩

structure Referred (files : List OFile) (ls : List LibSymbol) (i : Nat) (st st' : Relevant) :
    Prop where
  inv : RelevantInv files ls st'
  progress : st'.files = st.files ∧ st'.state = st.state ∨
    libraries st'.files < libraries st.files ∧ st'.state = true
  others : ∀ i', i' ≠ i → st'.ls[i']? = st.ls[i']?
  handled : ∀ s, st'.ls[i]? = some s → s.sec = 0 → fileType st'.files s.ofile ≠ 0

theorem includeDefiner_spec {i : Nat} (hls : ls = ofileLoop 1 files 0) (h : RelevantInv files ls st)
    (hi : ls[i]? = some s) (hst : st.ls[i]? = some s) (hsec : s.sec = 0)
    (htype : fileType st.files s.ofile = 0) :
    RelevantInv files ls (includeDefiner st s.name i) ∧ (includeDefiner st s.name i).ls = st.ls ∧
      ((includeDefiner st s.name i).files = st.files ∧
          (includeDefiner st s.name i).state = st.state ∨
        libraries (includeDefiner st s.name i).files < libraries st.files ∧
          (includeDefiner st s.name i).state = true) ∧
      Handled ls (includeDefiner st s.name i).files s := by
  have hfind : findDefiner s.name i st.ls 0 = definer ls s.name := by
    rw [findDefiner_eq, h.definer_eq]
    intro m t hm he
    rw [zero_add] at he
    subst he
    rw [hst] at hm
    cases hm
    omega
  rw [includeDefiner, hfind]
  rcases hd : definer ls s.name with _ | k
  · exact ⟨h, rfl, .inl ⟨rfl, rfl⟩, hsec, fun k hk => by rw [hd] at hk; cases hk⟩
  dsimp only
  by_cases hone : fileType st.files k = 1
  · rw [if_pos hone]
    have hdrop := libraries_setType hone
    have hklen : k < st.files.length := by
      by_contra hle
      rw [fileType, getElem?_eq_none (not_lt.mp hle)] at hone
      cases hone
    -- the reference is in a kept object, so its first definition is needed
    have hkept : Kept files k := by
      have hdef := definer_eq_some.mp (hls ▸ hd)
      have hs : s ∈ ofileLoop 1 files 0 := hls ▸ mem_of_getElem? hi
      obtain ⟨k', f, hf, hof, hs⟩ := mem_ofileLoop.mp hs
      rw [zero_add] at hof hs
      subst hof
      obtain ⟨t, ht, -, hkept⟩ := h.typed.get _ f hf
      rw [fileType_eq ht] at htype
      exact .library (hkept htype) ⟨f, hf, s, hs, rfl, hsec⟩ hdef
    have hsame : ∀ k', fileType (setType st.files k 0) k'
        = if k' = k then 0 else fileType st.files k' := fun k' => fileType_setType k k' hklen
    refine ⟨⟨h.typed.setType hkept, h.length, fun i' t ht => ?_, fun t ht htsec hstart => ?_⟩,
      rfl, .inr ⟨by dsimp only; omega, rfl⟩, hsec, fun k' hk' => ?_⟩
    · refine (h.marks i' t ht).imp_right fun hm => ⟨hm.1, hm.2.undefined, fun k' hk' => ?_⟩
      rw [hsame]
      split
      · decide
      · exact hm.2.included k' hk'
    · rw [hsame]
      split
      · rfl
      · exact h.roots t ht htsec hstart
    · rw [hd] at hk'
      cases hk'
      rw [hsame, if_pos rfl]
      decide
  · rw [if_neg hone]
    refine ⟨h, rfl, .inl ⟨rfl, rfl⟩, hsec, fun k' hk' => ?_⟩
    rw [hd] at hk'
    cases hk'
    exact hone

theorem refer_spec (hls : ls = ofileLoop 1 files 0) (h : RelevantInv files ls st) (i : Nat) :
    Referred files ls i st (refer st i) := by
  have hsame : (∀ s, st.ls[i]? = some s → s.sec = 0 → fileType st.files s.ofile ≠ 0) →
      Referred files ls i st st := fun hh => ⟨h, .inl ⟨rfl, rfl⟩, fun _ _ => rfl, hh⟩
  rw [refer]
  rcases hi : st.ls[i]? with _ | s
  · exact hsame fun s hs => by rw [hi] at hs; cases hs
  dsimp only
  by_cases hsec : s.sec ≠ 0
  · rw [if_pos hsec]
    refine hsame fun t ht hz => ?_
    rw [hi] at ht
    cases ht
    omega
  rw [if_neg hsec]
  rw [not_not] at hsec
  by_cases htype : fileType st.files s.ofile ≠ 0
  · rw [if_pos htype]
    refine hsame fun t ht _ => ?_
    rw [hi] at ht
    cases ht
    exact htype
  rw [if_neg htype]
  rw [not_not] at htype
  -- the reference is as it was read
  have hget : ls[i]? = some s := by
    have hlt : i < ls.length := by
      rw [← h.length]
      exact (List.getElem?_eq_some_iff.mp hi).1
    rcases h.marks i ls[i] (getElem?_eq_getElem hlt) with hm | ⟨hm, -⟩
    · rw [hi] at hm
      rw [getElem?_eq_getElem hlt, ← hm]
    · rw [hi] at hm
      cases hm
      cases hsec
  obtain ⟨hinv, hsyms, hprogress, hhandled⟩ := includeDefiner_spec hls h hget hi hsec htype
  refine ⟨⟨hinv.typed, (length_modify ..).trans hinv.length, fun i' t ht => ?_,
    hinv.roots⟩, hprogress, fun i' hi' => ?_, fun t ht hz => ?_⟩
  · rw [getElem?_modify]
    by_cases he : i = i'
    · subst he
      rw [hget] at ht
      cases ht
      refine .inr ⟨?_, hhandled⟩
      rw [hsyms, hi]
      simp
    · have hm := hinv.marks i' t ht
      simpa [he] using hm
  · rw [getElem?_modify, hsyms]
    simp [Ne.symm hi']
  · rw [getElem?_modify, hsyms, hi] at ht
    simp at ht
    rw [← ht] at hz
    cases hz

/-- What is known in a pass that began with `st` when `m` symbols have been looked at. -/
structure Passing (files : List OFile) (ls : List LibSymbol) (st : Relevant) (m : Nat)
    (st' : Relevant) : Prop where
  inv : RelevantInv files ls st'
  less : st'.state = true → libraries st'.files < libraries st.files
  same : st'.state = false → st'.files = st.files ∧ ∀ i < m, ∀ s : LibSymbol,
    st'.ls[i]? = some s → s.sec = 0 → fileType st.files s.ofile ≠ 0

theorem Passing.refer {st' : Relevant} {m : Nat} (hls : ls = ofileLoop 1 files 0)
    (h : Passing files ls st m st') : Passing files ls st (m + 1) (refer st' m) := by
  have hr := refer_spec hls h.inv m
  rcases hr.progress with ⟨hfiles, hstate⟩ | ⟨hlt, hstate⟩
  · refine ⟨hr.inv, fun ht => ?_, fun hf => ?_⟩
    · rw [hfiles]
      exact h.less (hstate ▸ ht)
    obtain ⟨hsame, hpassed⟩ := h.same (hstate ▸ hf)
    refine ⟨hfiles.trans hsame, fun i hi s hs hsec => ?_⟩
    by_cases he : i = m
    · subst he
      rw [← hsame, ← hfiles]
      exact hr.handled s hs hsec
    · rw [hr.others i he] at hs
      exact hpassed i (by omega) s hs hsec
  · refine ⟨hr.inv, fun _ => ?_, fun hf => ?_⟩
    · rcases hb : st'.state with _ | _
      · rwa [← (h.same hb).1]
      · exact lt_trans hlt (h.less hb)
    · rw [hstate] at hf
      cases hf

theorem referAll_spec (hls : ls = ofileLoop 1 files 0) (h : RelevantInv files ls st) :
    Passing files ls st st.ls.length (referAll st) := by
  have hrun : ∀ m, Passing files ls st m
      ((range m).foldl refer { st with state := false }) := by
    intro m
    induction m with
    | zero =>
      exact ⟨⟨h.typed, h.length, h.marks, h.roots⟩, fun ht => (by cases ht),
        fun _ => ⟨rfl, fun i hi => absurd hi (Nat.not_lt_zero i)⟩⟩
    | succ m ih =>
      rw [range_succ, foldl_append]
      exact ih.refer hls
  exact hrun st.ls.length

/-- The last pass has looked at all references of the kept objects. -/
structure Closed (files : List OFile) (ls : List LibSymbol) (st : Relevant) : Prop where
  inv : RelevantInv files ls st
  done : ∀ s ∈ ls, s.sec = 0 → fileType st.files s.ofile = 0 → Handled ls st.files s

/-- Each pass but the last one includes an object, so they come to an end. -/
theorem referLoop_spec (hls : ls = ofileLoop 1 files 0) : ∀ (rounds : Nat) {st : Relevant},
    RelevantInv files ls st → libraries st.files < rounds →
      ∃ st', referLoop rounds st = some st' ∧ Closed files ls st' := by
  intro rounds
  induction rounds with
  | zero => omega
  | succ rounds ih =>
    intro st h hlt
    have hpass := referAll_spec hls h
    rw [referLoop]
    rcases hstate : (referAll st).state with _ | _
    · refine ⟨_, if_pos rfl, hpass.inv, fun s hs hsec htype => ?_⟩
      obtain ⟨hfiles, hpassed⟩ := hpass.same hstate
      obtain ⟨i, hi⟩ := mem_iff_getElem?.mp hs
      rcases hpass.inv.marks i s hi with hm | ⟨-, hm⟩
      · have hlen : i < st.ls.length := by
          rw [h.length]
          exact (List.getElem?_eq_some_iff.mp hi).1
        rw [hfiles] at htype
        exact absurd htype (hpassed i hlen s hm hsec)
      · exact hm
    · exact ih hpass.inv (lt_of_lt_of_le (hpass.less hstate) (Nat.le_of_lt_succ hlt))

theorem startLoop_spec {all : List LibSymbol} (hall : all = ofileLoop 1 files 0) :
    ∀ {ls : List LibSymbol} {files' : List OFile} {found : Bool}, (∀ s ∈ ls, s ∈ all) →
      Typed files files' →
      Typed files (startLoop (archType files) ls files' found).1 ∧ (∀ k, fileType files' k = 0 →
          fileType (startLoop (archType files) ls files' found).1 k = 0) ∧
        ∀ s ∈ ls, s.sec ≠ 0 → IsStart (archType files) s.name →
          fileType (startLoop (archType files) ls files' found).1 s.ofile = 0 := by
  intro ls
  induction ls with
  | nil => exact fun _ h => ⟨h, fun _ h => h, fun s hs => absurd hs not_mem_nil⟩
  | cons s ls ih =>
    intro files' found hmem h
    have hmem' : ∀ t ∈ ls, t ∈ all := fun t ht => hmem t (.tail _ ht)
    rw [startLoop]
    by_cases hstart : s.sec ≠ 0 ∧ IsStart (archType files) s.name
    · rw [if_neg hstart.1, if_pos hstart.2]
      have hs : s ∈ ofileLoop 1 files 0 := hall ▸ hmem s mem_cons_self
      obtain ⟨k, f, hf, hof, hin⟩ := mem_ofileLoop.mp hs
      rw [zero_add] at hof hin
      have hkept : Kept files s.ofile :=
        .start ⟨f, hof ▸ hf, s, hof ▸ hin, rfl, hstart.1⟩ hstart.2
      have hlen : s.ofile < files'.length := by
        rw [h.length, hof]
        exact (List.getElem?_eq_some_iff.mp hf).1
      have hset := fun k' => @fileType_setType files' s.ofile k' hlen
      obtain ⟨ht, hmono, hroots⟩ := @ih _ true hmem' (h.setType hkept)
      refine ⟨ht, fun k' hk' => hmono k' ?_, fun t ht' hsec hname => ?_⟩
      · rw [hset]
        split
        · rfl
        · exact hk'
      · rcases mem_cons.mp ht' with rfl | ht'
        · exact hmono _ (by rw [hset, if_pos rfl])
        · exact hroots t ht' hsec hname
    · have hskip : (if s.sec = 0 then startLoop (archType files) ls files' found
          else if IsStart (archType files) s.name then
            startLoop (archType files) ls (setType files' s.ofile 0) true
          else startLoop (archType files) ls files' found)
            = startLoop (archType files) ls files' found := by
        by_cases hsec : s.sec = 0
        · exact if_pos hsec
        · rw [if_neg hsec, if_neg fun hn => hstart ⟨hsec, hn⟩]
      rw [hskip]
      obtain ⟨ht, hmono, hroots⟩ := @ih _ found hmem' h
      refine ⟨ht, hmono, fun t ht' hsec hname => ?_⟩
      rcases mem_cons.mp ht' with rfl | ht'
      · exact absurd ⟨hsec, hname⟩ hstart
      · exact hroots t ht' hsec hname

theorem removeLoop_eq {malloc : Nat → Bool} : ∀ {files : List OFile} {n : Nat},
    (removeLoop malloc files n).1 = true →
      (removeLoop malloc files n).2 = files.map fun f => if f.type = 1 then emptied else f := by
  intro files
  induction files with
  | nil => exact fun _ => rfl
  | cons f files ih =>
    intro n h
    rw [removeLoop] at h ⊢
    by_cases htype : f.type ≠ 1
    · rw [if_pos htype] at h ⊢
      simp [if_neg htype, ← ih h]
    rw [if_neg htype] at h ⊢
    rw [not_not] at htype
    rcases hm : malloc n with _ | _
    · rw [hm, if_pos rfl] at h
      cases h
    · rw [hm, if_neg Bool.noConfusion] at h
      rw [if_neg Bool.noConfusion, map_cons, if_pos htype, ← ih h]

/-- The kept objects are those that are needed; the others are emptied. -/
structure Selected (files files' : List OFile) : Prop where
  length : files'.length = files.length
  kept : ∀ (k : Nat) (f : OFile), files[k]? = some f → Kept files k →
    files'[k]? = some { f with type := 0 }
  emptied : ∀ (k : Nat) (f : OFile), files[k]? = some f → ¬Kept files k → f.type = 1 →
    files'[k]? = some emptied
  slot : ∀ (k : Nat) (f : OFile), files[k]? = some f → f.type = -1 → files'[k]? = some f

theorem Slots.type_of_defines (h : Slots files) (hf : files[k]? = some f)
    (hdef : Defines files k name) : f.type = 0 ∨ f.type = 1 := by
  rcases h.type f (mem_of_getElem? hf) with h0 | h1 | ⟨-, h0⟩
  · exact .inl h0
  · exact .inr h1
  obtain ⟨g, hg, s, hs, -, -⟩ := hdef
  rw [hf] at hg
  cases hg
  rw [fileSymbols, h0] at hs
  cases hs

theorem Slots.not_kept (h : Slots files) (hf : files[k]? = some f) (htype : f.type = -1) :
    ¬Kept files k := by
  have hdef : ∀ name, ¬Defines files k name := by
    intro name hd
    have := h.type_of_defines hf hd
    omega
  intro hk
  cases hk with
  | commandLine get type =>
    rw [hf] at get
    cases get
    omega
  | start defines => exact hdef _ defines
  | library _ _ definer => exact hdef _ definer.defines

theorem Closed.kept (hslots : Slots files) (h : Closed files (ofileLoop 1 files 0) st)
    (hk : Kept files k) :
    fileType st.files k = 0 := by
  induction hk with
  | commandLine get type =>
    obtain ⟨t, ht, htype, -⟩ := h.inv.typed.get _ _ get
    rw [fileType_eq ht]
    exact htype.elim (fun he => he.trans type) id
  | start hdef hstart =>
    obtain ⟨s, hs, rfl, rfl, hsec⟩ := defines_iff.mp hdef
    exact h.inv.roots s hs (by omega) hstart
  | library kept refers hdef ih =>
    obtain ⟨f, hf, s, hs, rfl, hsec⟩ := refers
    have hof := (mem_symbolLoop hs).1
    have hall : s ∈ ofileLoop 1 files 0 :=
      mem_ofileLoop.mpr ⟨_, f, hf, by omega, by rwa [zero_add]⟩
    have hnot := (h.done s hall hsec (hof ▸ ih)).included _ (definer_eq_some.mpr hdef)
    obtain ⟨g, hg, -⟩ := hdef.defines
    obtain ⟨t, ht, htype, -⟩ := h.inv.typed.get _ g hg
    rw [fileType_eq ht] at hnot ⊢
    rcases hslots.type_of_defines hg hdef.defines with h0 | h1
    · exact htype.elim (fun he => he.trans h0) id
    · exact htype.elim (fun he => absurd (he.trans h1) hnot) id

/-- **The least closure.** The selection ends. When it succeeds, the objects
that are kept are the least set, and the other objects of libraries are
emptied. -/
theorem libSetOfiles_least (files : List OFile) (argF : String) (malloc : Nat → Bool)
    (hslots : Slots files) :
    ∃ r files', libSetOfiles files argF malloc = some (r, files') ∧
      (r = 0 → Selected files files') := by
  rw [libSetOfiles]
  rcases hread : readExternalSymbols files 1 malloc with _ | ls
  · exact ⟨1, files, rfl, fun h => by cases h⟩
  have hls : ls = ofileLoop 1 files 0 := by
    rw [readExternalSymbols] at hread
    split at hread
    · cases hread
    · split at hread
      · exact (some.inj hread).symm
      · cases hread
  dsimp only
  obtain ⟨htyped, -, hroots⟩ := @startLoop_spec _ _ hls _ _ false (fun s hs => hs)
    (Typed.refl files)
  obtain ⟨files₁, hfiles₁⟩ : ∃ files₁, files₁ = (startLoop (archType files) ls files false).1 :=
    ⟨_, rfl⟩
  rw [← hfiles₁] at htyped hroots ⊢
  split
  · exact ⟨1, files₁, rfl, fun h => by cases h⟩
  have hinv : RelevantInv files ls ⟨ls, files₁, false⟩ :=
    ⟨htyped, rfl, fun i s hs => .inl hs, hroots⟩
  have hbound : libraries files₁ < files.length + 1 := by
    rw [← htyped.length]
    exact Nat.lt_succ_of_le countP_le_length
  obtain ⟨st, hloop, hclosed⟩ := referLoop_spec hls (files.length + 1) hinv hbound
  rw [hloop]
  dsimp only
  refine ⟨_, _, rfl, fun hr => ?_⟩
  have hdone : (removeLoop malloc st.files 1).1 = true := by
    by_contra hnot
    rw [if_neg hnot] at hr
    cases hr
  rw [removeLoop_eq hdone]
  have hlast : ∀ (k : Nat) (f : OFile), files[k]? = some f → ∃ t,
      (st.files.map fun f => if f.type = 1 then Dancy.Link.emptied else f)[k]?
        = some (if t = 1 then Dancy.Link.emptied else { f with type := t }) ∧
      (t = f.type ∨ t = 0) ∧ (t = 0 ↔ Kept files k) := by
    intro k f hf
    obtain ⟨t, ht, htype, hkept⟩ := hclosed.inv.typed.get k f hf
    refine ⟨t, by rw [getElem?_map, ht]; rfl, htype, hkept, fun hk => ?_⟩
    have := (hls ▸ hclosed).kept hslots hk
    rwa [fileType_eq ht] at this
  refine ⟨(length_map ..).trans hclosed.inv.typed.length, ?_, ?_, ?_⟩
  · intro k f hf hk
    obtain ⟨t, ht, -, h0⟩ := hlast k f hf
    obtain rfl : t = 0 := h0.mpr hk
    exact ht
  · intro k f hf hk hone
    obtain ⟨t, ht, htype, h0⟩ := hlast k f hf
    have htone : t = 1 := by
      rcases htype with he | he
      · exact he.trans hone
      · exact absurd (h0.mp he) hk
    rw [ht, if_pos htone]
  · intro k f hf hneg
    obtain ⟨t, ht, htype, h0⟩ := hlast k f hf
    obtain rfl : t = f.type := by
      rcases htype with he | he
      · exact he
      · exact absurd (h0.mp he) (hslots.not_kept hf hneg)
    rw [ht, if_neg (by omega)]

def callerData : Bytes := fun k =>
  if k = 8 then 20 else if k = 12 then 1 else if k = 20 then 102 else if k = 36 then 2 else 0

/-- An object that refers to `f`, and a library object that defines it. -/
def callerFiles : List OFile :=
  [⟨callerData, 38, 0⟩, ⟨fun k => if k = 32 then 1 else callerData k, 38, 1⟩]

theorem libSetOfiles_least_two : ∃ files', libSetOfiles callerFiles "obj" (fun _ => true) =
    some (0, files') ∧ Selected callerFiles files' := by
  have hslots : Slots callerFiles := by
    refine ⟨fun f hf => ?_⟩
    rcases mem_cons.mp hf with rfl | hf
    · exact .inl rfl
    · rw [mem_singleton.mp hf]
      exact .inr (.inl rfl)
  have hdone : (libSetOfiles callerFiles "obj" fun _ => true).any (fun r => r.1 = 0) = true := by
    decide +kernel
  obtain ⟨r, files', h, hselected⟩ := libSetOfiles_least callerFiles "obj" (fun _ => true) hslots
  rw [h] at hdone
  obtain rfl : r = 0 := of_decide_eq_true hdone
  exact ⟨files', h, hselected rfl⟩

end Dancy.Link
