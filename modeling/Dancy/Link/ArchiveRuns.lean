import Dancy.Link.Archive

/-!
# The index of an archive

An offset in the index is final when its member is appended, but it is not
marked as final: if it is `2 * i` and the `i`-th file is an object behind, it is
taken for the temporary value of that file. In all other cases the index is
right, and the archive gives its objects back as far as their sizes and their
number fit.
-/

namespace Dancy.Link

open Dancy.Lib List

variable {files : List OFile} {ulongMax : Nat} {malloc malloc' : Nat → Bool}

def dwordBE (l : List UInt8) (i : Nat) : Nat :=
  (l.getD i 0).toNat * 2 ^ 24 + (l.getD (i + 1) 0).toNat * 2 ^ 16 +
    (l.getD (i + 2) 0).toNat * 2 ^ 8 + (l.getD (i + 3) 0).toNat

/-- The `j`-th name of a table of names. -/
def indexName : (j : Nat) → List UInt8 → List UInt8
  | 0, l => l.takeWhile (· ≠ 0)
  | j + 1, l => indexName j ((l.dropWhile (· ≠ 0)).drop 1)

/-- The offset of the header of the `k`-th file, if the first one is at `real`. -/
def headerOffset : List OFile → (real k : Nat) → Nat
  | [], real, _ => real
  | _ :: _, real, 0 => real
  | f :: files, real, k + 1 =>
    headerOffset files (if f.data.word 0 = 0 then real else padded (real + 60 + f.size)) k

def indexSymbols (files : List OFile) : List LibSymbol := ofileLoop 0 files 0

/-- The offset of the header of the `k`-th file in the archive. -/
def memberOffset (files : List OFile) (k : Nat) : Nat :=
  headerOffset files (firstOffset (indexSymbols files)) k

/-- Each offset of the index is that of the member which defines the symbol. -/
structure IndexRight (files : List OFile) (archive : List UInt8) : Prop where
  count : dwordBE archive 68 = (indexSymbols files).length
  entries : ∀ j s, (indexSymbols files)[j]? = some s → Defines files s.ofile s.name ∧
      indexName j (archive.drop (72 + 4 * (indexSymbols files).length)) = s.name ∧
      dwordBE archive (72 + 4 * j) = memberOffset files s.ofile
  members : ∀ k f, files[k]? = some f → f.data.word 0 ≠ 0 → ∃ before after,
    archive = before ++ (memberHeader (memberName (memberOffset files k)) f.size ++ f.bytes) ++ after ∧
      before.length = memberOffset files k

/-! ## What becomes of a value -/

/-- What becomes of one value while the members are appended. -/
def follow : List OFile → (i real v : Nat) → Nat
  | [], _, _, v => v
  | f :: files, i, real, v =>
    if f.data.word 0 = 0 then follow files (i + 1) real v
    else
      follow files (i + 1) (padded (real + 60 + f.size))
        (if v >>> 1 = i then real % 2 ^ 32 else v)

theorem appendMembers_snd : ∀ {files : List OFile} {i real : Nat} {offsets : List Nat},
    (appendMembers files i real offsets).2 = offsets.map (follow files i real) := by
  intro files
  induction files with
  | nil => exact fun {_ _ offsets} => (map_id' offsets).symm
  | cons f files ih =>
    intro i real offsets
    rw [appendMembers]
    by_cases hempty : f.data.word 0 = 0
    · rw [if_pos hempty, ih]
      exact map_congr_left fun v _ => (if_pos hempty).symm
    · rw [if_neg hempty]
      simp only [ih, map_map]
      exact map_congr_left fun v _ => (if_neg hempty).symm

def MembersFit (files : List OFile) (real : Nat) : Prop := real + (membersFrom files real).length < 2 ^ 32

variable {real : Nat} {f : OFile} {s : LibSymbol}

theorem MembersFit.lt (h : MembersFit files real) : real < 2 ^ 32 := by
  rw [MembersFit] at h
  omega

theorem MembersFit.empty (h : MembersFit (f :: files) real) (hf : f.data.word 0 = 0) :
    MembersFit files real := by
  rwa [MembersFit, membersFrom, if_pos hf] at h

theorem MembersFit.next (h : MembersFit (f :: files) real) (hf : f.data.word 0 ≠ 0) :
    MembersFit files (padded (real + 60 + f.size)) := by
  have hreal := h.lt
  rw [MembersFit, membersFrom, if_neg hf] at h
  simp only [length_append, bytes_length] at h
  have hlen := @memberHeader_length _ f.size (memberName_length hreal) (by omega)
  have hpad : (padding (real + 60 + f.size)).length = (real + 60 + f.size) % 2 :=
    length_replicate
  have hnext : padded (real + 60 + f.size) = real + 60 + f.size + (real + 60 + f.size) % 2 := rfl
  rw [MembersFit]
  omega

theorem padded_even (n : Nat) : padded n % 2 = 0 := by
  rw [padded]
  omega

theorem le_padded (n : Nat) : n ≤ padded n := Nat.le_add_right n _

theorem le_follow {b : Nat} : ∀ {files : List OFile} {i real v : Nat}, MembersFit files real →
    b ≤ real → b ≤ v → b ≤ follow files i real v := by
  intro files
  induction files with
  | nil => exact fun _ _ hv => hv
  | cons f files ih =>
    intro i real v hfits hreal hv
    rw [follow]
    by_cases hempty : f.data.word 0 = 0
    · rw [if_pos hempty]
      exact ih (hfits.empty hempty) hreal hv
    rw [if_neg hempty]
    refine ih (hfits.next hempty) ?_ ?_
    · have := le_padded (real + 60 + f.size)
      omega
    · rw [Nat.mod_eq_of_lt hfits.lt]
      split
      · exact hreal
      · exact hv

/-- A value stays as it is unless it is taken for that of an object to come. -/
theorem follow_eq_iff : ∀ {files : List OFile} {i real v : Nat}, MembersFit files real → v < real →
    (follow files i real v = v ↔
      ∀ j f, files[j]? = some f → f.data.word 0 ≠ 0 → v >>> 1 ≠ i + j) := by
  intro files
  induction files with
  | nil =>
    intro i real v _ _
    exact ⟨fun _ j f hf => absurd hf (by simp), fun _ => rfl⟩
  | cons f files ih =>
    intro i real v hfits hv
    -- the objects behind are those of the rest, with their indices
    have hrest : (∀ j f', files[j]? = some f' → f'.data.word 0 ≠ 0 → v >>> 1 ≠ i + 1 + j) ↔
        ∀ j f', (f :: files)[j + 1]? = some f' → f'.data.word 0 ≠ 0 → v >>> 1 ≠ i + (j + 1) := by
      simp only [List.getElem?_cons_succ, add_assoc, add_comm 1]
    rw [follow]
    by_cases hempty : f.data.word 0 = 0
    · rw [if_pos hempty, ih (hfits.empty hempty) hv, hrest]
      constructor
      · intro h j f' hf' hne
        cases j with
        | zero =>
          cases hf'
          omega
        | succ j => exact h j f' hf' hne
      · exact fun h j => h (j + 1)
    · rw [if_neg hempty]
      have hnext := hfits.next hempty
      have hle := le_padded (real + 60 + f.size)
      by_cases hmatch : v >>> 1 = i
      · rw [if_pos hmatch, Nat.mod_eq_of_lt hfits.lt]
        have hlarge := le_follow (i := i + 1) (b := real) hnext (by omega) le_rfl
        exact ⟨fun h => by omega, fun h => absurd hmatch (h 0 f rfl hempty)⟩
      rw [if_neg hmatch, ih hnext (by omega), hrest]
      constructor
      · intro h j f' hf' hne
        cases j with
        | zero => exact hmatch
        | succ j => exact h j f' hf' hne
      · exact fun h j => h (j + 1)

/-- The temporary value of an object becomes its offset and stays so unless
that is taken for the value of an object behind. -/
theorem follow_temporary : ∀ {files : List OFile} {i real k : Nat} {f : OFile}, MembersFit files real →
    real % 2 = 0 → files[k]? = some f → f.data.word 0 ≠ 0 →
    (follow files i real (2 * (i + k) + 1) = headerOffset files real k ↔
      ∀ j f', k < j → files[j]? = some f' → f'.data.word 0 ≠ 0 →
        headerOffset files real k ≠ 2 * (i + j)) := by
  intro files
  induction files with
  | nil => simp
  | cons g files ih =>
    intro i real k f hfits heven hf hne
    cases k with
    | zero =>
      cases hf
      rw [follow, if_neg hne, headerOffset, if_pos (by omega), Nat.mod_eq_of_lt hfits.lt,
        follow_eq_iff (hfits.next hne) (by have := le_padded (real + 60 + g.size); omega)]
      constructor
      · intro h j f' hj hf' hne'
        obtain ⟨j, rfl⟩ : ∃ m, j = m + 1 := ⟨j - 1, by omega⟩
        have := h j f' hf' hne'
        omega
      · intro h j f' hf' hne'
        have := h (j + 1) f' (by omega) hf' hne'
        omega
    | succ k =>
      have hodd : (2 * (i + (k + 1)) + 1) >>> 1 ≠ i := by
        omega
      -- the rest, with its own indices
      have hshift : ∀ real', (∀ j f', k < j → files[j]? = some f' → f'.data.word 0 ≠ 0 →
          headerOffset files real' k ≠ 2 * (i + 1 + j)) ↔
          ∀ j f', k + 1 < j → (g :: files)[j]? = some f' → f'.data.word 0 ≠ 0 →
            headerOffset files real' k ≠ 2 * (i + j) := by
        intro real'
        constructor
        · intro h j f' hj hf' hne'
          obtain ⟨j, rfl⟩ : ∃ m, j = m + 1 := ⟨j - 1, by omega⟩
          have := h j f' (by omega) hf' hne'
          omega
        · intro h j f' hj hf' hne'
          have := h (j + 1) f' (by omega) hf' hne'
          omega
      rw [follow, headerOffset, if_neg hodd, show i + (k + 1) = i + 1 + k by omega]
      by_cases hempty : g.data.word 0 = 0
      · rw [if_pos hempty, if_pos hempty, ih (hfits.empty hempty) heven hf hne, hshift]
      · rw [if_neg hempty, if_neg hempty, ih (hfits.next hempty) (padded_even _) hf hne, hshift]

theorem follow_lt : ∀ {files : List OFile} {i real v : Nat}, v < 2 ^ 32 →
    follow files i real v < 2 ^ 32 := by
  intro files
  induction files with
  | nil => exact fun hv => hv
  | cons f files ih =>
    intro i real v hv
    rw [follow]
    split
    · exact ih hv
    · refine ih ?_
      split
      · omega
      · exact hv

theorem follow_past : ∀ {files : List OFile} {i real v : Nat}, v >>> 1 < i →
    follow files i real v = v := by
  intro files
  induction files with
  | nil => exact fun _ => rfl
  | cons f files ih =>
    intro i real v h
    rw [follow, if_neg (c := v >>> 1 = i) (by omega), ih (by omega), ih (by omega), ite_self]

theorem follow_left : ∀ {files : List OFile} {i real k : Nat},
    (∀ f, files[k]? = some f → f.data.word 0 = 0) →
    follow files i real (2 * (i + k) + 1) = 2 * (i + k) + 1 := by
  intro files
  induction files with
  | nil => exact fun _ => rfl
  | cons g files ih =>
    intro i real k h
    rw [follow]
    cases k with
    | zero =>
      rw [if_pos (h g rfl)]
      refine follow_past ?_
      omega
    | succ k =>
      have hodd : (2 * (i + (k + 1)) + 1) >>> 1 ≠ i := by
        omega
      rw [if_neg hodd, show i + (k + 1) = i + 1 + k by omega, ih h, ih h, ite_self]

theorem membersFrom_at : ∀ {files : List OFile} {real k : Nat} {f : OFile}, MembersFit files real →
    files[k]? = some f → f.data.word 0 ≠ 0 → ∃ before after, membersFrom files real =
        before ++ (memberHeader (memberName (headerOffset files real k)) f.size ++ f.bytes) ++ after ∧
        real + before.length = headerOffset files real k := by
  intro files
  induction files with
  | nil => simp
  | cons g files ih =>
    intro real k f hfits hf hne
    rw [membersFrom]
    cases k with
    | zero =>
      cases hf
      rw [if_neg hne, headerOffset]
      exact ⟨[], _, append_assoc _ _ _, rfl⟩
    | succ k =>
      rw [headerOffset]
      by_cases hempty : g.data.word 0 = 0
      · rw [if_pos hempty, if_pos hempty]
        exact ih (hfits.empty hempty) hf hne
      rw [if_neg hempty, if_neg hempty]
      obtain ⟨before, after, hmembers, hlen⟩ := ih (hfits.next hempty) hf hne
      have hreal := hfits.lt
      have hsize : g.size < 2 ^ 32 := by
        rw [MembersFit, membersFrom, if_neg hempty] at hfits
        simp only [length_append, bytes_length] at hfits
        omega
      refine ⟨memberHeader (memberName real) g.size ++ g.bytes ++
        padding (real + 60 + g.size) ++ before, after, ?_, ?_⟩
      · rw [hmembers]
        simp
      rw [← hlen]
      simp only [length_append, bytes_length,
        memberHeader_length (memberName_length hreal) (lt_trans hsize (by decide))]
      rw [padding, length_replicate, padded]
      omega

theorem be32_length (v : Nat) : (be32 v).length = 4 := rfl

theorem be32s_length (vs : List Nat) : (vs.flatMap be32).length = 4 * vs.length := by
  induction vs with
  | nil => rfl
  | cons v vs ih =>
    rw [flatMap_cons, length_append, be32_length, ih, length_cons]
    omega

theorem dwordBE_drop (l : List UInt8) (n i : Nat) : dwordBE (l.drop n) i = dwordBE l (n + i) := by
  simp only [dwordBE, getD_eq_getElem?_getD, List.getElem?_drop, add_assoc]

theorem dwordBE_be32 {v : Nat} (hv : v < 2 ^ 32) (l : List UInt8) : dwordBE (be32 v ++ l) 0 = v := by
  simp [dwordBE, be32]
  omega

theorem dwordBE_be32s {vs : List Nat} {j v : Nat} (hv : v < 2 ^ 32) (hj : vs[j]? = some v)
    (l : List UInt8) : dwordBE (vs.flatMap be32 ++ l) (4 * j) = v := by
  induction vs generalizing j with
  | nil => cases hj
  | cons w vs ih =>
    rw [flatMap_cons, append_assoc]
    cases j with
    | zero =>
      cases hj
      exact dwordBE_be32 hv _
    | succ j =>
      have hdrop := dwordBE_drop (be32 w ++ (vs.flatMap be32 ++ l)) 4 (4 * j)
      exact ih hj

theorem indexName_nameTable {ls : List LibSymbol} {j : Nat}
    (hnames : ∀ s ∈ ls, (0 : UInt8) ∉ s.name) (hj : ls[j]? = some s) (l : List UInt8) :
    indexName j (nameTable ls ++ l) = s.name := by
  induction ls generalizing j with
  | nil => cases hj
  | cons t ls ih =>
    have hchars : ∀ c ∈ t.name, decide (c ≠ 0) = true := by
      intro c hc
      rw [decide_eq_true_eq]
      rintro rfl
      exact hnames t mem_cons_self hc
    rw [nameTable, flatMap_cons, append_assoc, append_assoc]
    cases j with
    | zero =>
      cases hj
      rw [indexName, takeWhile_append_of_pos hchars]
      simp
    | succ j =>
      rw [indexName, dropWhile_append_of_pos hchars]
      exact ih (fun s hs => hnames s (.tail _ hs)) hj

theorem temporary_eq (h : s.ofile < 2 ^ 31) : temporary s = 2 * s.ofile + 1 := by
  have hor : s.ofile <<< 1 ||| 1 = s.ofile <<< 1 + 1 :=
    (Nat.shiftLeft_add_eq_or_of_lt (by decide) s.ofile).symm
  rw [temporary, hor, Nat.shiftLeft_eq]
  omega

theorem cstring_no_zero (dat : Bytes) (i n : Nat) : (0 : UInt8) ∉ cstring dat i n := by
  intro h
  have := all_eq_true.mp all_takeWhile 0 h
  simp at this

theorem symbolName_no_zero (f : OFile) (sym : Nat) : (0 : UInt8) ∉ symbolName f sym := by
  rw [symbolName]
  split
  all_goals exact cstring_no_zero _ _ _

theorem mem_readSymbol_zero {i sym : Nat} (h : s ∈ readSymbol f 0 i sym) :
    s ∈ readSymbol f 1 i sym ∧ s.sec ≠ 0 ∧ (0 : UInt8) ∉ s.name := by
  simp only [readSymbol] at h ⊢
  split at h
  · cases h
  next hsec =>
    split at h
    · exact absurd h not_mem_nil
    · next hkind =>
        rw [if_neg (by omega), if_neg hkind]
        obtain rfl := mem_singleton.mp h
        exact ⟨h, fun hzero => hsec ⟨trivial, hzero⟩, symbolName_no_zero f sym⟩

/-- The symbols that are read for the index are those that are defined. -/
theorem mem_symbolLoop_zero {i : Nat} : ∀ {rounds j : Nat}, s ∈ symbolLoop f 0 i rounds j →
      s ∈ symbolLoop f 1 i rounds j ∧ s.sec ≠ 0 ∧ (0 : UInt8) ∉ s.name := by
  intro rounds
  induction rounds with
  | zero => exact fun h => absurd h not_mem_nil
  | succ rounds ih =>
    intro j h
    rw [symbolLoop] at h ⊢
    by_cases hj : j < f.symbols
    · rw [if_pos hj] at h ⊢
      rcases mem_append.mp h with h | h
      · obtain ⟨hmem, hrest⟩ := mem_readSymbol_zero h
        exact ⟨mem_append_left _ hmem, hrest⟩
      · obtain ⟨hmem, hrest⟩ := ih h
        exact ⟨mem_append_right _ hmem, hrest⟩
    · rw [if_neg hj] at h
      cases h

theorem mem_indexSymbols (h : s ∈ indexSymbols files) :
    Defines files s.ofile s.name ∧ (0 : UInt8) ∉ s.name ∧ s.ofile < files.length := by
  obtain ⟨k, f, hf, hof, hs⟩ := mem_ofileLoop.mp h
  rw [zero_add] at hof hs
  obtain ⟨hmem, hsec, hzero⟩ := mem_symbolLoop_zero hs
  rw [hof]
  exact ⟨⟨f, hf, s, hmem, rfl, hsec⟩, hzero, (List.getElem?_eq_some_iff.mp hf).1⟩

theorem addSize_le {out add size : Nat} (h : addSize ulongMax out add = some size) :
    size ≤ 0x7FFFFFFF + add := by
  rw [addSize] at h
  generalize (if out > ulongMax - add then 0xFFFFFFFF else out) = out' at h
  by_cases hbig : out' > 0x7FFFFFFF
  · rw [if_pos hbig] at h
    cases h
  · rw [if_neg hbig] at h
    cases h
    omega

theorem checkLoop_spec : ∀ {files : List OFile} {type out size : Nat},
    checkLoop ulongMax files type out = some size →
    (∀ f ∈ files, f.data.word 0 ≠ 0 → Supported f) ∧ size ≤ max out (0x7FFFFFFF + 64) := by
  intro files
  induction files with
  | nil =>
    intro type out size h
    cases h
    simp
  | cons f files ih =>
    intro type out size h
    rw [checkLoop] at h
    by_cases hempty : f.data.word 0 = 0
    · rw [if_pos hempty] at h
      obtain ⟨hall, hsize⟩ := ih h
      refine ⟨fun f' hf' hne => ?_, hsize⟩
      rcases mem_cons.mp hf' with rfl | hf'
      · exact absurd hempty hne
      · exact hall f' hf' hne
    · rw [if_neg hempty] at h
      obtain ⟨⟨e, t⟩, hvalid, h⟩ := Option.bind_eq_some_iff.mp h
      cases e with
      | true => cases h
      | false =>
        obtain ⟨out1, h1, h⟩ := Option.bind_eq_some_iff.mp h
        obtain ⟨out2, h2, h⟩ := Option.bind_eq_some_iff.mp h
        obtain ⟨hall, hsize⟩ := ih h
        have hout := addSize_le h2
        refine ⟨fun f' hf' hne => ?_, by omega⟩
        rcases mem_cons.mp hf' with rfl | hf'
        · have hhead : HeadOk type f' := by
            by_contra hno
            obtain ⟨t', ht'⟩ := @validateObj_refused _ ulongMax _ hno
            rw [ht'] at hvalid
            cases hvalid
          exact ⟨hhead.length, hhead.kind⟩
        · exact hall f' hf' hne

theorem nameSizes_le : ∀ {ls : List LibSymbol} {out size : Nat},
    nameSizes ulongMax ls out = some size → size ≤ max out (0x7FFFFFFF + 64) := by
  intro ls
  induction ls with
  | nil =>
    intro out size h
    cases h
    omega
  | cons s ls ih =>
    intro out size h
    obtain ⟨out1, h1, h⟩ := Option.bind_eq_some_iff.mp h
    obtain ⟨out2, h2, h⟩ := Option.bind_eq_some_iff.mp h
    have hout := addSize_le h2
    have hsize := ih h
    omega

/-- The offsets at the end of the loop over the files. -/
def finalOffsets (files : List OFile) : List Nat :=
  (indexSymbols files).map fun s => follow files 0 (firstOffset (indexSymbols files)) (temporary s)

def archiveOf (files : List OFile) : List UInt8 :=
  archHeader ++ indexMember (indexSymbols files) (finalOffsets files) ++
    padding (8 + 60 + indexSize (indexSymbols files)) ++
    membersFrom files (firstOffset (indexSymbols files))

/-- What is known of an archive that is written. -/
structure Written (files : List OFile) (archive : List UInt8) : Prop where
  eq : archive = archiveOf files
  supported : ∀ f ∈ files, f.data.word 0 ≠ 0 → Supported f
  even : ∀ v ∈ finalOffsets files, v % 2 = 0
  length : archive.length < 2 ^ 32

theorem libMain_written {type : Nat} {archive : List UInt8}
    (h : libMain ulongMax type malloc files = some archive) : Written files archive := by
  obtain ⟨size, hcheck, h⟩ := Option.bind_eq_some_iff.mp h
  obtain ⟨ls, hls, h⟩ := Option.bind_eq_some_iff.mp h
  obtain ⟨size', hnames, h⟩ := Option.bind_eq_some_iff.mp h
  obtain ⟨hall, hsize⟩ := checkLoop_spec hcheck
  have hsize' := nameSizes_le hnames
  obtain rfl : ls = indexSymbols files := by
    rw [readExternalSymbols] at hls
    split at hls
    · cases hls
    · split at hls
      · exact (Option.some.inj hls).symm
      · cases hls
  by_cases hmalloc : malloc 1 = false
  · rw [if_pos hmalloc] at h
    cases h
  simp only [if_neg hmalloc, appendMembers_fst, appendMembers_snd, map_map] at h
  have hoff : map (follow files 0 (firstOffset (indexSymbols files)) ∘ temporary)
      (indexSymbols files) = finalOffsets files := rfl
  rw [hoff, ← archiveOf] at h
  by_cases hodd : ((finalOffsets files).any fun v => v = 0 || v &&& 1 ≠ 0) = true
  · rw [if_pos hodd] at h
    cases h
  rw [if_neg hodd] at h
  by_cases hlong : size' < (archiveOf files).length
  · rw [if_pos hlong] at h
    cases h
  rw [if_neg hlong] at h
  cases h
  refine ⟨rfl, hall, fun v hv => ?_, by omega⟩
  rw [Bool.not_eq_true, any_eq_false] at hodd
  have := hodd v hv
  simp at this
  omega

/-! ## The archive as a whole -/

/-- The first special member behind its header. -/
def indexContent (files : List OFile) : List UInt8 :=
  be32 (indexSymbols files).length ++ ((finalOffsets files).flatMap be32 ++
    (nameTable (indexSymbols files) ++ if indexSymbols files = [] then [0] else []))

theorem finalOffsets_length : (finalOffsets files).length = (indexSymbols files).length :=
  length_map _

theorem indexContent_length : (indexContent files).length = indexSize (indexSymbols files) := by
  rw [indexContent, indexSize, length_append, length_append, length_append,
    be32_length, be32s_length, finalOffsets_length]
  split
  · simp only [length_singleton]
    omega
  · simp only [length_nil]
    omega

theorem archiveOf_eq : archiveOf files =
    archHeader ++ (memberHeader [0x2F] (indexContent files).length ++ (indexContent files ++
      (padding (8 + 60 + indexSize (indexSymbols files)) ++
        membersFrom files (firstOffset (indexSymbols files))))) := by
  rw [indexContent_length]
  simp only [archiveOf, indexMember, indexContent, append_assoc]

namespace Written

variable {archive : List UInt8} (h : Written files archive)

include h

theorem content_lt : (indexContent files).length < 2 ^ 32 := by
  have hlen := h.length
  rw [h.eq, archiveOf_eq] at hlen
  simp only [length_append] at hlen
  omega

theorem header_length : (memberHeader [0x2F] (indexContent files).length).length = 60 := by
  have := h.content_lt
  exact memberHeader_length (by decide) (by omega)

theorem length_eq : archive.length = firstOffset (indexSymbols files) +
    (membersFrom files (firstOffset (indexSymbols files))).length := by
  have hheader := h.header_length
  have hfirst : firstOffset (indexSymbols files) = 8 + 60 + indexSize (indexSymbols files) +
      (8 + 60 + indexSize (indexSymbols files)) % 2 := rfl
  have hpad : (padding (8 + 60 + indexSize (indexSymbols files))).length =
      (8 + 60 + indexSize (indexSymbols files)) % 2 := length_replicate
  have harch : archHeader.length = 8 := rfl
  have hcontent := @indexContent_length files
  rw [h.eq, archiveOf_eq]
  simp only [length_append]
  omega

theorem fits : MembersFit files (firstOffset (indexSymbols files)) := by
  have := h.length
  rwa [h.length_eq] at this

theorem drop_eq {before behind : List UInt8} {n : Nat} (hcut : indexContent files = before ++ behind)
    (hn : 68 + before.length = n) : archive.drop n = behind ++
      (padding (8 + 60 + indexSize (indexSymbols files)) ++
        membersFrom files (firstOffset (indexSymbols files))) := by
  have hheader := h.header_length
  have harch : archHeader.length = 8 := rfl
  have hassoc : archive = (archHeader ++ memberHeader [0x2F] (indexContent files).length ++ before) ++
      (behind ++ (padding (8 + 60 + indexSize (indexSymbols files)) ++
        membersFrom files (firstOffset (indexSymbols files)))) := by
    rw [h.eq, archiveOf_eq]
    rw [hcut]
    simp
  rw [hassoc]
  refine drop_left' ?_
  rw [length_append, length_append]
  omega

theorem count_eq : dwordBE archive 68 = (indexSymbols files).length := by
  have hlt := h.content_lt
  rw [indexContent_length, indexSize] at hlt
  have hcut : indexContent files = [] ++ (be32 (indexSymbols files).length ++
      ((finalOffsets files).flatMap be32 ++ (nameTable (indexSymbols files) ++
        if indexSymbols files = [] then [0] else []))) := rfl
  have hdrop := dwordBE_drop archive 68 0
  rw [h.drop_eq (n := 68) hcut rfl, append_assoc] at hdrop
  rw [← hdrop]
  exact dwordBE_be32 (by omega) _

variable {j : Nat}

section

variable (hj : (indexSymbols files)[j]? = some s)
include hj

theorem name_eq : indexName j (archive.drop (72 + 4 * (indexSymbols files).length)) = s.name := by
  have hcut : indexContent files = (be32 (indexSymbols files).length ++
      (finalOffsets files).flatMap be32) ++ (nameTable (indexSymbols files) ++
        if indexSymbols files = [] then [0] else []) := by
    rfl
  rw [h.drop_eq hcut, append_assoc]
  · exact indexName_nameTable (fun s hs => (mem_indexSymbols hs).2.1) hj _
  · rw [length_append, be32_length, be32s_length, finalOffsets_length]
    omega

theorem offset_eq (hofile : s.ofile < 2 ^ 31) :
    dwordBE archive (72 + 4 * j) =
      follow files 0 (firstOffset (indexSymbols files)) (2 * s.ofile + 1) := by
  have hcut : indexContent files = be32 (indexSymbols files).length ++
      ((finalOffsets files).flatMap be32 ++ (nameTable (indexSymbols files) ++
        if indexSymbols files = [] then [0] else [])) := rfl
  have hget : (finalOffsets files)[j]? =
      some (follow files 0 (firstOffset (indexSymbols files)) (2 * s.ofile + 1)) := by
    rw [finalOffsets, List.getElem?_map, hj, Option.map_some, temporary_eq hofile]
  rw [← dwordBE_drop, h.drop_eq (n := 72) hcut rfl, append_assoc]
  exact dwordBE_be32s (follow_lt (by omega)) hget _

/-- The offset of a symbol is that of its member unless it is taken for the
temporary value of an object behind. -/
theorem offset_right_iff (hfiles : files.length < 2 ^ 31) :
    dwordBE archive (72 + 4 * j) = memberOffset files s.ofile ↔
      ∀ i f, s.ofile < i → files[i]? = some f → f.data.word 0 ≠ 0 →
        memberOffset files s.ofile ≠ 2 * i := by
  have hlt := (mem_indexSymbols (mem_of_getElem? hj)).2.2
  have heven := h.even _ (mem_map_of_mem (mem_of_getElem? hj))
  rw [temporary_eq (by omega)] at heven
  -- a file without an object would keep its temporary value
  obtain ⟨f, hf, hne⟩ : ∃ f, files[s.ofile]? = some f ∧ f.data.word 0 ≠ 0 := by
    by_contra hno
    have hleft := @follow_left files 0 (firstOffset (indexSymbols files)) s.ofile fun f hf =>
      of_not_not fun hne => hno ⟨f, hf, hne⟩
    rw [zero_add] at hleft
    omega
  have hiff := follow_temporary (i := 0) h.fits (padded_even _) hf hne
  simp only [zero_add] at hiff
  rwa [h.offset_eq hj (by omega)]

end

theorem member_at {k : Nat} {f : OFile} (hf : files[k]? = some f) (hne : f.data.word 0 ≠ 0) :
    ∃ before after, archive =
        before ++ (memberHeader (memberName (memberOffset files k)) f.size ++ f.bytes) ++ after ∧
      before.length = memberOffset files k := by
  obtain ⟨before, after, hmembers, hlen⟩ := membersFrom_at h.fits hf hne
  have htotal := h.length_eq
  refine ⟨archHeader ++ indexMember (indexSymbols files) (finalOffsets files) ++
    padding (8 + 60 + indexSize (indexSymbols files)) ++ before, after, ?_, ?_⟩
  · rw [h.eq, archiveOf, hmembers, memberOffset]
    simp
  · rw [h.eq, archiveOf, length_append] at htotal
    rw [length_append, memberOffset, ← hlen]
    omega

/-- The archive is read as its objects if its first special member has nine
digits at most. -/
theorem process_eq (nr : Nat) : processLibFile malloc archive nr =
    if indexSize (indexSymbols files) ≤ 999999999 then
      readAll malloc ((objects files).map OFile.bytes) nr
    else (false, []) := by
  have hcontent := h.content_lt
  have hpos : 0 < (indexContent files).length := by
    rw [indexContent_length, indexSize]
    omega
  have htotal := h.length_eq
  have hfirst : firstOffset (indexSymbols files) = 8 + 60 + indexSize (indexSymbols files) +
      (8 + 60 + indexSize (indexSymbols files)) % 2 := rfl
  have hfits := h.fits
  rw [processLibFile, if_neg (by omega)]
  have hdrop : archive.drop 8 = replicate 0 0x0A ++
      (memberHeader [0x2F] (indexContent files).length ++ (indexContent files ++
        (padding (8 + 60 + indexSize (indexSymbols files)) ++
          membersFrom files (firstOffset (indexSymbols files))))) := by
    rw [h.eq, archiveOf_eq]
    rfl
  obtain ⟨rounds, hrounds⟩ : ∃ k, archive.length = k + 1 := ⟨archive.length - 1, by omega⟩
  rw [hdrop, hrounds, processLoop_index hpos (by omega), indexContent_length, padding,
    processLoop_members h.supported hfits (by omega)]

end Written

/-- No offset of a member that defines a symbol is the double of the index of
an object behind. -/
def NoAlias (files : List OFile) : Prop :=
  ∀ s ∈ indexSymbols files, ∀ i f, s.ofile < i → files[i]? = some f → f.data.word 0 ≠ 0 →
    memberOffset files s.ofile ≠ 2 * i

/-- The index of an archive that is written is right if no offset is taken for
a temporary value, and its objects are read back if the sizes have nine digits
at most and there is room and memory for the objects. -/
theorem libMain_archive_iff {type nr : Nat} {archive : List UInt8}
    (h : libMain ulongMax type malloc files = some archive) (hfiles : files.length < 2 ^ 31)
    (hnr : nr ≤ OFILES_LIMIT) :
    (IndexRight files archive ↔ NoAlias files) ∧
      (processLibFile malloc' archive nr = (true, (objects files).map OFile.bytes) ↔
        indexSize (indexSymbols files) ≤ 999999999 ∧ (∀ f ∈ objects files, f.size ≤ 999999999) ∧
          nr + (objects files).length ≤ OFILES_LIMIT ∧
          ∀ i < (objects files).length, malloc' (nr + i) = true) := by
  have hw := libMain_written h
  constructor
  · constructor
    · intro hright s hs i f hi hf hne
      obtain ⟨j, hj⟩ := mem_iff_getElem?.mp hs
      exact (hw.offset_right_iff hj hfiles).mp (hright.entries j s hj).2.2 i f hi hf hne
    · intro hno
      refine ⟨hw.count_eq, fun j s hj => ?_, fun k f hf hne => hw.member_at hf hne⟩
      have hs := mem_of_getElem? hj
      exact ⟨(mem_indexSymbols hs).1, hw.name_eq hj, (hw.offset_right_iff hj hfiles).mpr (hno s hs)⟩
  · rw [hw.process_eq]
    by_cases hindex : indexSize (indexSymbols files) ≤ 999999999
    · rw [if_pos hindex, readAll_eq_iff hnr, forall_mem_map, length_map,
        and_iff_right hindex]
      simp only [bytes_length]
    · rw [if_neg hindex]
      exact ⟨fun h => (by cases h), fun h => absurd h.1 hindex⟩

/-- An object with eight bytes of uninitialized data, the symbol `a`. -/
def definesA : OFile :=
  ofBytes ([0x64, 0x86, 1, 0, 0, 0, 0, 0, 60, 0, 0, 0, 1, 0, 0, 0, 0, 0, 0, 0] ++
    [46, 98, 115, 115, 0, 0, 0, 0, 0, 0, 0, 0, 0, 0, 0, 0, 8, 0, 0, 0,
      0, 0, 0, 0, 0, 0, 0, 0, 0, 0, 0, 0, 0, 0, 0, 0, 0x80, 0, 0, 0xC0] ++
    [97, 0, 0, 0, 0, 0, 0, 0, 0, 0, 0, 0, 1, 0, 0, 0, 2, 0] ++ [4, 0, 0, 0])

def plainObject : OFile :=
  ofBytes [0x64, 0x86, 0, 0, 0, 0, 0, 0, 0, 0, 0, 0, 0, 0, 0, 0, 0, 0, 0, 0]

theorem libMain_archive_two :
    ∃ archive, libMain (2 ^ 64 - 1) 0 (fun _ => true) [definesA, plainObject] = some archive ∧
      IndexRight [definesA, plainObject] archive ∧
      processLibFile (fun _ => true) archive 1 = (true, [definesA.bytes, plainObject.bytes]) := by
  have hsome : (libMain (2 ^ 64 - 1) 0 (fun _ => true) [definesA, plainObject]).isSome = true := by
    decide +kernel
  obtain ⟨archive, harchive⟩ := Option.isSome_iff_exists.mp hsome
  have hsymbols : (indexSymbols [definesA, plainObject]).map LibSymbol.ofile = [0] := by decide
  have hiff := @libMain_archive_iff _ _ _ (fun _ => true) _ 1 _ harchive (by decide) (by decide)
  refine ⟨archive, harchive, hiff.1.mpr fun s hs i f hi hf hne => ?_, hiff.2.mpr ?_⟩
  · have hofile : s.ofile = 0 := mem_singleton.mp (hsymbols ▸ mem_map_of_mem hs)
    have hlt : i < 2 := (List.getElem?_eq_some_iff.mp hf).1
    rw [hofile, show memberOffset [definesA, plainObject] 0 = 78 by decide]
    omega
  · decide

/-- An offset is taken for the temporary value of the last of forty files. -/
theorem offset_taken :
    ∃ archive, libMain (2 ^ 64 - 1) 0 (fun _ => true)
        (definesA :: (replicate 38 emptied ++ [plainObject])) = some archive ∧
      ¬IndexRight (definesA :: (replicate 38 emptied ++ [plainObject])) archive := by
  have hsome : (libMain (2 ^ 64 - 1) 0 (fun _ => true)
      (definesA :: (replicate 38 emptied ++ [plainObject]))).isSome = true := by
    decide +kernel
  obtain ⟨archive, harchive⟩ := Option.isSome_iff_exists.mp hsome
  refine ⟨archive, harchive, fun hright => ?_⟩
  obtain ⟨s, hs, hofile⟩ : ∃ s, (indexSymbols (definesA :: (replicate 38 emptied ++
      [plainObject])))[0]? = some s ∧ s.ofile = 0 :=
    ⟨_, rfl, by decide +kernel⟩
  have hoffset : memberOffset (definesA :: (replicate 38 emptied ++ [plainObject])) 0 =
      2 * 39 := by decide +kernel
  have hne := ((libMain_written harchive).offset_right_iff hs (by decide)).mp
    (hright.entries 0 s hs).2.2 39 plainObject (by omega) rfl (by decide)
  rw [hofile] at hne
  exact hne hoffset

end Dancy.Link
