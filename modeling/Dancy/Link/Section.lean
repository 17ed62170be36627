import Dancy.Lib.Bits
import Dancy.Lib.Bytes
import Mathlib.Algebra.BigOperators.Group.List.Basic
import Mathlib.Data.List.Perm.Subperm

/-!
# Sections of the linker (`dy-link/section.c`)

The object files are in a list, each with its bytes. A section is given by the
index of its file and its own; its header has 40 bytes behind the 20 bytes of
the file header. The fields are read and written where the source does it.
-/

namespace Dancy.Link

open Dancy.Lib List

def INT_MAX : Nat := 2 ^ 31 - 1

/-- `struct file`, without its name. -/
structure OFile where
  data : Bytes
  size : Nat
  type : Int

/-- The alignment bits of `struct options`. -/
structure AlignBits where
  (t r d b : Nat)

/-! ## The iterator -/

/-- The header of a section in the data of its file. -/
def sect (j : Nat) : Nat := 20 + j * 40

/-- `strncmp` finds no difference in `n` characters; a name ends with a zero. -/
def sameName : (n : Nat) → Bytes → (i : Nat) → (name : List UInt8) → Bool
  | 0, _, _, _ => true
  | _ + 1, s, i, [] => s i = 0
  | n + 1, s, i, c :: name => s i = c && sameName n s (i + 1) name

/-- `struct iterate`, without the options and the name. -/
structure Iterate where
  (grp grpMax obj sec : Nat)

/-- The loop over the sections of a file from `j` on, `left` of them. Without
a name the groups are not looked at. -/
def secLoop (dat : Bytes) (name : Option (List UInt8)) (itGrp : Nat) :
    (left j grpMax : Nat) → Option Nat × Nat
  | 0, _, grpMax => (none, grpMax)
  | left + 1, j, grpMax =>
    match name with
    | none => (some j, grpMax)
    | some name =>
      let grp := dat.dword (sect j + 28)
      if sameName 8 dat (sect j) name = false then
        secLoop dat name itGrp left (j + 1) grpMax
      else
        let grpMax := if grp > grpMax then grp else grpMax
        if grp ≠ itGrp then secLoop dat name itGrp left (j + 1) grpMax
        else (some j, grpMax)

/-- The loop over the files from the `i`-th on. -/
def objLoop (name : Option (List UInt8)) (itGrp : Nat) :
    List OFile → (i sec grpMax : Nat) → Option (Nat × Nat) × Nat
  | [], _, _, grpMax => (none, grpMax)
  | f :: files, i, sec, grpMax =>
    match secLoop f.data name itGrp (f.data.word 2 - sec) sec grpMax with
    | (some j, grpMax) => (some (i, j), grpMax)
    | (none, grpMax) => objLoop name itGrp files (i + 1) 0 grpMax

/-- The loop over the groups. A group is an `unsigned`, so there are as many
rounds at most. -/
def grpLoop (files : List OFile) (name : Option (List UInt8)) :
    (rounds : Nat) → Iterate → Option (Nat × Nat) × Iterate
  | 0, it => (none, it)
  | rounds + 1, it =>
    match objLoop name it.grp (files.drop it.obj) it.obj it.sec it.grpMax with
    | (some (i, j), grpMax) => (some (i, j), { it with grpMax := grpMax, obj := i, sec := j + 1 })
    | (none, grpMax) =>
      let it := { it with grpMax := grpMax, obj := 0, sec := 0 }
      if it.grp < it.grpMax then grpLoop files name rounds { it with grp := it.grp + 1 }
      else (none, { it with grp := it.grp + 1, obj := 2 ^ 32 - 1 })

def iterateInit : Iterate := ⟨0, 0, 0, 0⟩

/-- `iterate_next`: the file and the section. -/
def iterateNext (files : List OFile) (name : Option (List UInt8)) (it : Iterate) :
    Option (Nat × Nat) × Iterate :=
  grpLoop files name (2 ^ 32) it

/-! ## Sizes and offsets -/

def header (files : List OFile) (i : Nat) : Bytes :=
  (files[i]?.map OFile.data).getD fun _ => 0

/-- `align`. -/
def alignOf (bit : Nat) : Nat :=
  let align := (bit &&& 0x00F00000) >>> 20
  if align ≠ 0 then 1 <<< (align - 1) else 16

/-- `(t1 + t2) & ~t2` of `unsigned` values. -/
def alignUp (t1 t2 : Nat) : Nat := (t1 + t2) % 2 ^ 32 &&& (2 ^ 32 - (t2 + 1))

def raise (c : UInt8) (bit : Nat) (a : AlignBits) : AlignBits :=
  let bits := bit &&& 0x00F00000
  let a := if c = 116 ∧ a.t < bits then { a with t := bits } else a
  let a := if c = 114 ∧ a.r < bits then { a with r := bits } else a
  let a := if c = 100 ∧ a.d < bits then { a with d := bits } else a
  if c = 98 ∧ a.b < bits then { a with b := bits } else a

/-- All the sections there are, which bounds the loops over them. -/
def sectionCount (files : List OFile) : Nat := (files.map fun f => f.data.word 2).sum

/-- The loop of `section_data_size`. -/
def dataSizeLoop (files : List OFile) (name : List UInt8) :
    (left : Nat) → Iterate → AlignBits → (total : Nat) → Option (Nat × AlignBits)
  | 0, _, _, _ => none
  | left + 1, it, a, total =>
    match iterateNext files (some name) it with
    | (none, _) => some (total, a)
    | (some (i, j), it) =>
      let buf := header files i
      let add := buf.dword (sect j + 16)
      let bit := buf.dword (sect j + 36)
      let align := alignOf bit
      let a := raise (name.getD 1 0) bit a
      if total < INT_MAX - (align - 1) then
        let total := alignUp total (align - 1)
        if add < INT_MAX then
          if total < INT_MAX - add then dataSizeLoop files name left it a (total + add)
          else some (INT_MAX, a)
        else some (INT_MAX, a)
      else some (INT_MAX, a)

/-- `section_data_size`, with the alignment bits that it raises; `none` is a
loop that does not end. -/
def sectionDataSize (files : List OFile) (name : List UInt8) (a : AlignBits) :
    Option (Nat × AlignBits) :=
  dataSizeLoop files name (sectionCount files + 1) iterateInit a 0

/-- What `section_copy_d` changes. `visited` is a history: the sections with
the offsets that they are given. -/
structure Copied where
  files : List OFile
  out : Option Bytes
  total : Nat
  visited : List (Nat × Nat × Nat)

/-- One round of the loop of `section_copy_d`. -/
def copySection (c : Copied) (i j : Nat) : Copied :=
  let buf := header c.files i
  let add := buf.dword (sect j + 16)
  let off := buf.dword (sect j + 20)
  let bit := buf.dword (sect j + 36)
  let total := alignUp c.total (alignOf bit - 1)
  let dat := buf.setDword (sect j + 12) total
  { files := c.files.modify i fun f => { f with data := dat }
    out := c.out.map fun out => if add ≠ 0 then out.copy total dat off add else out
    total := total + add
    visited := c.visited ++ [(i, j, total)] }

/-- The loop of `section_copy_d`. -/
def copyLoop (name : List UInt8) : (left : Nat) → Iterate → Copied → Option Copied
  | 0, _, _ => none
  | left + 1, it, c =>
    match iterateNext c.files (some name) it with
    | (none, _) => some c
    | (some (i, j), it) => copyLoop name left it (copySection c i j)

/-- `section_copy_d`; `none` is a loop that does not end. -/
def sectionCopyD (files : List OFile) (name : List UInt8) (out : Option Bytes) : Option Copied :=
  copyLoop name (sectionCount files + 1) iterateInit ⟨files, out, 0, []⟩

/-- `strcmp` finds no difference. -/
def equalName (s : Bytes) (i : Nat) (name : List UInt8) : Bool := sameName (name.length + 1) s i name

/-- `section_reloc`: the offset of the section, which is counted from one, and
the section of the output. -/
def sectionReloc (files : List OFile) (obj sec : Nat) : Nat × Nat :=
  let dat := header files obj
  let i := 20 + (sec - 1) * 40
  (dat.dword (i + 12), if equalName dat i [46, 116, 101, 120, 116] then 1
    else if equalName dat i [46, 114, 100, 97, 116, 97] then 2
    else if equalName dat i [46, 100, 97, 116, 97] then 3
    else if equalName dat i [46, 98, 115, 115] then 4
    else 0)

/-! ## Places -/

def Earlier (p q : Nat × Nat) : Prop := p.1 < q.1 ∨ p.1 = q.1 ∧ p.2 < q.2

theorem earlier_iff {a b c d : Nat} : Earlier (a, b) (c, d) ↔ a < c ∨ a = c ∧ b < d := Iff.rfl

def Before (a b : Nat × Nat × Nat) : Prop := a.1 < b.1 ∨ a.1 = b.1 ∧ Earlier a.2 b.2

structure HasName (dat : Bytes) (name : List UInt8) (j : Nat) : Prop where
  lt : j < dat.word 2
  same : sameName 8 dat (sect j) name = true

/-- The group of a section, which is kept in its header. -/
def groupIn (dat : Bytes) (j : Nat) : Nat := dat.dword (sect j + 28)

/-- The section `j` of the file `i` has the name. -/
def Named (files : List OFile) (name : List UInt8) (i j : Nat) : Prop :=
  i < files.length ∧ HasName (header files i) name j

def group (files : List OFile) (i j : Nat) : Nat := groupIn (header files i) j

def key (files : List OFile) (s : Nat × Nat) : Nat × Nat × Nat := (group files s.1 s.2, s.1, s.2)

variable {i : Nat} {l : List (Nat × Nat)}

theorem header_eq {files : List OFile} {f : OFile} (h : files[i]? = some f) :
    header files i = f.data := by
  rw [header, h]
  rfl

variable {files : List OFile} {name : List UInt8}

/-- What is known of the sections between `j` and `k` that are passed over. -/
structure Passed (dat : Bytes) (name : List UInt8) (g j k grpMax : Nat) : Prop where
  other : ∀ k', j ≤ k' → k' < k → HasName dat name k' → groupIn dat k' ≠ g
  le : ∀ k', j ≤ k' → k' < k → HasName dat name k' → groupIn dat k' ≤ grpMax

theorem Passed.cons {dat : Bytes} {g j k m m' : Nat} (h : Passed dat name g (j + 1) k m')
    (hm : m ≤ m') (hne : HasName dat name j → groupIn dat j ≠ g)
    (hle : HasName dat name j → groupIn dat j ≤ m) : Passed dat name g j k m' := by
  constructor
  · intro k' hj hk hn
    rcases eq_or_lt_of_le hj with rfl | hlt
    · exact hne hn
    · exact h.other k' hlt hk hn
  · intro k' hj hk hn
    rcases eq_or_lt_of_le hj with rfl | hlt
    · exact le_trans (hle hn) hm
    · exact h.le k' hlt hk hn

/-- The result of a search from `j` on in one file, and the groups seen. -/
structure FileSearch (dat : Bytes) (name : List UInt8) (g j m : Nat) (r : Option Nat × Nat) :
    Prop where
  mono : m ≤ r.2
  lt : r.2 < 2 ^ 32
  found : ∀ k, r.1 = some k → j ≤ k ∧ HasName dat name k ∧ groupIn dat k = g ∧
    groupIn dat k ≤ r.2 ∧ Passed dat name g j k r.2
  none : r.1 = none → Passed dat name g j (dat.word 2) r.2

theorem secLoop_spec (dat : Bytes) (name : List UInt8) (g : Nat) : ∀ (left j m : Nat),
    left = dat.word 2 - j → m < 2 ^ 32 →
    FileSearch dat name g j m (secLoop dat (some name) g left j m) := by
  intro left
  induction left with
  | zero =>
    intro j m hleft hm
    refine ⟨le_rfl, hm, fun k hk => (by cases hk), fun _ => ⟨?_, ?_⟩⟩
    · omega
    · omega
  | succ left ih =>
    intro j m hleft hm
    have hlt : groupIn dat j < 2 ^ 32 := Bytes.dword_lt
    rw [secLoop]
    by_cases hsame : sameName 8 dat (sect j) name = false
    · -- another name
      have hno : ¬HasName dat name j := fun h => by
        rw [h.same] at hsame
        cases hsame
      rw [if_pos hsame]
      have h := ih (j + 1) m (by omega) hm
      refine ⟨h.mono, h.lt, fun k hk => ?_, fun hk => ?_⟩
      · obtain ⟨hjk, hn, hg, hle, hp⟩ := h.found k hk
        exact ⟨by omega, hn, hg, hle, hp.cons h.mono (absurd · hno) (absurd · hno)⟩
      · exact (h.none hk).cons h.mono (absurd · hno) (absurd · hno)
    · rw [if_neg hsame]
      have hn : HasName dat name j := ⟨by omega, Bool.eq_true_of_not_eq_false hsame⟩
      obtain ⟨m', hm'⟩ : ∃ m', m' = if groupIn dat j > m then groupIn dat j else m := ⟨_, rfl⟩
      have hbounds : m ≤ m' ∧ groupIn dat j ≤ m' ∧ m' < 2 ^ 32 := by
        rw [hm']
        split <;> omega
      change FileSearch dat name g j m (if groupIn dat j ≠ g then
        secLoop dat (some name) g left (j + 1) (if groupIn dat j > m then groupIn dat j else m)
        else (some j, if groupIn dat j > m then groupIn dat j else m))
      rw [← hm']
      by_cases hg : groupIn dat j ≠ g
      · rw [if_pos hg]
        have h := ih (j + 1) m' (by omega) hbounds.2.2
        refine ⟨le_trans hbounds.1 h.mono, h.lt, fun k hk => ?_, fun hk => ?_⟩
        · obtain ⟨hjk, hn', hg', hle, hp⟩ := h.found k hk
          exact ⟨by omega, hn', hg', hle, hp.cons h.mono (fun _ => hg) fun _ => hbounds.2.1⟩
        · exact (h.none hk).cons h.mono (fun _ => hg) fun _ => hbounds.2.1
      · rw [if_neg hg]
        rw [not_not] at hg
        refine ⟨hbounds.1, hbounds.2.2, fun k hk => ?_, fun hk => (by cases hk)⟩
        cases hk
        refine ⟨le_rfl, hn, hg, hbounds.2.1, ?_, ?_⟩
        · omega
        · omega

/-- The sections from one place to another that are passed over in a search
for the group `g`. -/
structure PassedFiles (files : List OFile) (name : List UInt8) (g : Nat) (p q : Nat × Nat)
    (grpMax : Nat) : Prop where
  other : ∀ a b, Named files name a b → ¬Earlier (a, b) p → Earlier (a, b) q → group files a b ≠ g
  le : ∀ a b, Named files name a b → ¬Earlier (a, b) p →
    Earlier (a, b) q → group files a b ≤ grpMax

structure Search (files : List OFile) (name : List UInt8) (g : Nat) (p : Nat × Nat) (m : Nat)
    (r : Option (Nat × Nat) × Nat) : Prop where
  mono : m ≤ r.2
  lt : r.2 < 2 ^ 32
  found : ∀ s, r.1 = some s → ¬Earlier s p ∧ Named files name s.1 s.2 ∧
    group files s.1 s.2 = g ∧ group files s.1 s.2 ≤ r.2 ∧ PassedFiles files name g p s r.2
  none : r.1 = none → PassedFiles files name g p (files.length, 0) r.2

theorem objLoop_spec (files : List OFile) (name : List UInt8) (g : Nat) :
    ∀ (rest : List OFile) (i sec m : Nat), rest = files.drop i → m < 2 ^ 32 →
      Search files name g (i, sec) m (objLoop (some name) g rest i sec m) := by
  intro rest
  induction rest with
  | nil =>
    intro i sec m hrest hm
    have hlen : files.length ≤ i := drop_eq_nil_iff.mp hrest.symm
    refine ⟨le_rfl, hm, fun s hs => (by cases hs), fun _ => ⟨?_, ?_⟩⟩
    all_goals
      intro a b hn hfrom hto
      simp only [earlier_iff] at hfrom hto
      omega
  | cons f rest ih =>
    intro i sec m hrest hm
    have hget : files[i]? = some f := by
      rw [← head?_drop, ← hrest]
      rfl
    have hdrop : rest = files.drop (i + 1) := by
      rw [← tail_drop, ← hrest]
      rfl
    have hdat := header_eq hget
    have hlen : i < files.length := (List.getElem?_eq_some_iff.mp hget).1
    have hfile := secLoop_spec f.data name g (f.data.word 2 - sec) sec m rfl hm
    rw [objLoop]
    rcases hr : secLoop f.data (some name) g (f.data.word 2 - sec) sec m with ⟨_ | k, m'⟩
    · -- not in this file
      rw [hr] at hfile
      have hnone := hfile.none rfl
      have h := ih (i + 1) 0 m' hdrop hfile.lt
      have hother : ∀ a b, Named files name a b → ¬Earlier (a, b) (i, sec) →
          Earlier (a, b) (i + 1, 0) → group files a b ≠ g ∧ group files a b ≤ m' := by
        intro a b hn hfrom hto
        obtain rfl : a = i := by
          simp only [earlier_iff] at hfrom hto
          omega
        have hin := hn.2
        rw [hdat] at hin
        have hsec : sec ≤ b := by
          simp only [earlier_iff, true_and] at hfrom
          omega
        rw [group, hdat]
        exact ⟨hnone.other b hsec hin.lt hin, hnone.le b hsec hin.lt hin⟩
      have hjoin : ∀ q, PassedFiles files name g (i + 1, 0) q
          (objLoop (some name) g rest (i + 1) 0 m').2 →
          PassedFiles files name g (i, sec) q (objLoop (some name) g rest (i + 1) 0 m').2 := by
        intro q hq
        constructor
        · intro a b hn hfrom hto
          by_cases hmid : Earlier (a, b) (i + 1, 0)
          · exact (hother a b hn hfrom hmid).1
          · exact hq.other a b hn hmid hto
        · intro a b hn hfrom hto
          by_cases hmid : Earlier (a, b) (i + 1, 0)
          · exact le_trans (hother a b hn hfrom hmid).2 h.mono
          · exact hq.le a b hn hmid hto
      refine ⟨le_trans hfile.mono h.mono, h.lt, fun s hs => ?_, fun hs => hjoin _ (h.none hs)⟩
      obtain ⟨hfrom, hn, hg, hle, hp⟩ := h.found s hs
      refine ⟨?_, hn, hg, hle, hjoin s hp⟩
      obtain ⟨a, b⟩ := s
      simp only [earlier_iff] at hfrom ⊢
      omega
    · -- found in this file
      rw [hr] at hfile
      obtain ⟨hjk, hn, hg, hle, hp⟩ := hfile.found k rfl
      have hpassed : ∀ a b, Named files name a b → ¬Earlier (a, b) (i, sec) →
          Earlier (a, b) (i, k) → group files a b ≠ g ∧ group files a b ≤ m' := by
        intro a b hnab hfrom hto
        obtain rfl : a = i := by
          simp only [earlier_iff] at hfrom hto
          omega
        have hin := hnab.2
        rw [hdat] at hin
        have hsec : sec ≤ b ∧ b < k := by
          simp only [earlier_iff, true_and] at hfrom hto
          omega
        rw [group, hdat]
        exact ⟨hp.other b hsec.1 hsec.2 hin, hp.le b hsec.1 hsec.2 hin⟩
      refine ⟨hfile.mono, hfile.lt, fun s hs => ?_, fun hs => (by cases hs)⟩
      cases hs
      refine ⟨?_, ⟨hlen, hdat ▸ hn⟩, by rw [group, hdat]; exact hg, by rw [group, hdat]; exact hle,
        fun a b hnab hfrom hto => (hpassed a b hnab hfrom hto).1,
        fun a b hnab hfrom hto => (hpassed a b hnab hfrom hto).2⟩
      simp only [earlier_iff]
      omega
def Iterate.place (it : Iterate) : Nat × Nat × Nat := (it.grp, it.obj, it.sec)

/-- The largest group is known as far as the sections have been looked at. -/
structure IterateInv (files : List OFile) (name : List UInt8) (it : Iterate) : Prop where
  grp_lt : it.grp < 2 ^ 32
  grpMax_lt : it.grpMax < 2 ^ 32
  known : ∀ a b, Named files name a b → 0 < it.grp ∨ Earlier (a, b) (it.obj, it.sec) →
    group files a b ≤ it.grpMax

theorem IterateInv.init : IterateInv files name iterateInit :=
  ⟨by decide, by decide, fun a b _ h => by
    simp only [iterateInit, earlier_iff] at h
    omega⟩

/-- The result of the iterator: the next section from its place on. -/
structure Next (files : List OFile) (name : List UInt8) (it : Iterate)
    (r : Option (Nat × Nat) × Iterate) : Prop where
  found : ∀ s, r.1 = some s → Named files name s.1 s.2 ∧ ¬Before (key files s) it.place ∧
    (∀ a b, Named files name a b → ¬Before (key files (a, b)) it.place →
      ¬Before (key files (a, b)) (key files s)) ∧
    r.2.place = (group files s.1 s.2, s.1, s.2 + 1) ∧ IterateInv files name r.2
  none : r.1 = none → ∀ a b, Named files name a b → Before (key files (a, b)) it.place

/-- **The iterator.** It finds the next section in the order of the groups. -/
theorem grpLoop_spec (files : List OFile) (name : List UInt8) : ∀ (rounds : Nat) (it : Iterate),
    IterateInv files name it → 2 ^ 32 ≤ rounds + it.grp →
      Next files name it (grpLoop files (some name) rounds it) := by
  intro rounds
  induction rounds with
  | zero =>
    intro it hinv hrounds
    have := hinv.grp_lt
    omega
  | succ rounds ih =>
    intro it hinv hrounds
    have h := objLoop_spec files name it.grp (files.drop it.obj) it.obj it.sec it.grpMax rfl
      hinv.grpMax_lt
    rw [grpLoop]
    rcases hr : objLoop (some name) it.grp (files.drop it.obj) it.obj it.sec it.grpMax
      with ⟨_ | ⟨i, j⟩, m⟩
    · -- the group is done
      rw [hr] at h
      have hp := h.none rfl
      dsimp only at hp ⊢
      have hm : ∀ a b, Named files name a b → group files a b ≤ m := by
        intro a b hn
        by_cases hbefore : 0 < it.grp ∨ Earlier (a, b) (it.obj, it.sec)
        · exact le_trans (hinv.known a b hn hbefore) h.mono
        · have hlen := hn.1
          rw [not_or] at hbefore
          exact hp.le a b hn hbefore.2 (.inl hlen)
      have hdone : ∀ a b, Named files name a b → ¬Before (key files (a, b)) it.place →
          it.grp < group files a b := by
        intro a b hn hfrom
        have hlen := hn.1
        by_contra hle
        refine hfrom ?_
        rcases Nat.lt_or_eq_of_le (not_lt.mp hle) with hlt | heq
        · exact .inl hlt
        · by_contra hnot
          refine hp.other a b hn (fun he => hnot (.inr ⟨heq, he⟩)) (.inl hlen) heq
      by_cases hmore : it.grp < m
      · rw [if_pos hmore]
        have hlt := h.lt
        have hnext := ih { it with grp := it.grp + 1, grpMax := m, obj := 0, sec := 0 }
          ⟨by dsimp only at hlt ⊢; omega, hlt, fun a b hn _ => hm a b hn⟩ (by dsimp only; omega)
        have hplace : ∀ a b, Named files name a b → ¬Before (key files (a, b)) it.place →
            ¬Before (key files (a, b)) (it.grp + 1, 0, 0) := by
          intro a b hn hfrom hto
          have hg := hdone a b hn hfrom
          simp only [Before, key, earlier_iff] at hto
          omega
        have hback : ∀ q, ¬Before q (it.grp + 1, 0, 0) → ¬Before q it.place := by
          intro q hq hb
          refine hq (.inl ?_)
          simp only [Before, Iterate.place] at hb ⊢
          omega
        refine ⟨fun s hs => ?_, fun hs a b hn => ?_⟩
        · obtain ⟨hn, hfrom, hleast, hp', hinv'⟩ := hnext.found s hs
          exact ⟨hn, hback _ hfrom, fun a b hab hab' => hleast a b hab (hplace a b hab hab'),
            hp', hinv'⟩
        · by_contra hfrom
          exact hplace a b hn hfrom (hnext.none hs a b hn)
      · rw [if_neg hmore]
        refine ⟨fun s hs => (by cases hs), fun _ a b hn => ?_⟩
        by_contra hfrom
        have := hdone a b hn hfrom
        have := hm a b hn
        omega
    · -- a section of the group
      rw [hr] at h
      obtain ⟨hfrom, hn, hg, hle, hp⟩ := h.found (i, j) rfl
      refine ⟨fun s hs => ?_, fun hs => by cases hs⟩
      cases hs
      refine ⟨hn, ?_, ?_, ?_, ?_⟩
      · rintro (hlt | ⟨-, he⟩)
        · simp only [key, Iterate.place, hg] at hlt
          omega
        · exact hfrom he
      · intro a b hab hab' hbefore
        rcases hbefore with hlt | ⟨heq, he⟩
        · refine hab' (.inl ?_)
          simp only [key, hg] at hlt
          exact hlt
        · simp only [key, hg] at heq
          refine hp.other a b hab (fun hb => hab' (.inr ⟨heq, hb⟩)) he heq
      · rw [Iterate.place, hg]
      have hlt := h.lt
      refine ⟨hinv.grp_lt, hlt, fun a b hab hknown => ?_⟩
      by_cases hbefore : 0 < it.grp ∨ Earlier (a, b) (it.obj, it.sec)
      · exact le_trans (hinv.known a b hab hbefore) h.mono
      rw [not_or] at hbefore
      rcases hknown with h0 | he
      · exact absurd h0 hbefore.1
      by_cases hij : Earlier (a, b) (i, j)
      · exact hp.le a b hab hbefore.2 hij
      · obtain ⟨rfl, rfl⟩ : a = i ∧ b = j := by
          simp only [earlier_iff] at he hij
          omega
        exact hle

theorem iterateNext_spec {it : Iterate} (h : IterateInv files name it) :
    Next files name it (iterateNext files (some name) it) :=
  grpLoop_spec files name (2 ^ 32) it h (by omega)

/-! ## The sections of a walk -/

/-- The sections that the iterator gives until it ends. -/
def visits (files : List OFile) (name : List UInt8) : Nat → Iterate → Option (List (Nat × Nat))
  | 0, _ => none
  | left + 1, it =>
    match iterateNext files (some name) it with
    | (none, _) => some []
    | (some s, it) => (visits files name left it).map (s :: ·)

def SectionBefore (files : List OFile) (s t : Nat × Nat) : Prop :=
  Before (key files s) (key files t)

theorem before_trichotomy {p q : Nat × Nat × Nat} (h : ¬Before p q) : Before q p ∨ q = p := by
  obtain ⟨a, b, c⟩ := p
  obtain ⟨d, e, f⟩ := q
  simp only [Before, earlier_iff, Prod.mk.injEq] at h ⊢
  omega

theorem Before.trans {p q r : Nat × Nat × Nat} (h : Before p q) (h' : Before q r) :
    Before p r := by
  obtain ⟨a, b, c⟩ := p
  obtain ⟨d, e, f⟩ := q
  obtain ⟨i, j, k⟩ := r
  simp only [Before, earlier_iff] at h h' ⊢
  omega

theorem Before.irrefl (p : Nat × Nat × Nat) : ¬Before p p := by
  obtain ⟨a, b, c⟩ := p
  simp only [Before, earlier_iff]
  omega

theorem before_succ {p : Nat × Nat × Nat} {a b c : Nat} :
    Before p (a, b, c + 1) ↔ Before p (a, b, c) ∨ p = (a, b, c) := by
  obtain ⟨d, e, f⟩ := p
  simp only [Before, earlier_iff, Prod.mk.injEq]
  omega

theorem key_injective {s t : Nat × Nat} (h : key files s = key files t) : s = t := by
  simp only [key, Prod.mk.injEq] at h
  exact Prod.ext h.2.1 h.2.2

/-- What a walk that has ended, or has been stopped, has given. -/
structure Walked (files : List OFile) (name : List UInt8) (it : Iterate)
    (l : List (Nat × Nat)) : Prop where
  sorted : l.Pairwise (SectionBefore files)
  named : ∀ s ∈ l, Named files name s.1 s.2 ∧ ¬Before (key files s) it.place

theorem Walked.cons {it it' : Iterate} {s : Nat × Nat} (hn : Next files name it (some s, it'))
    (h : Walked files name it' l) : Walked files name it (s :: l) := by
  obtain ⟨hs, hfrom, -, hplace, -⟩ := hn.found s rfl
  have hafter : ∀ t, ¬Before (key files t) it'.place → Before (key files s) (key files t) := by
    intro t ht
    rw [hplace, before_succ, not_or] at ht
    rcases before_trichotomy ht.1 with hb | he
    · exact hb
    · exact absurd he.symm ht.2
  refine ⟨pairwise_cons.mpr ⟨fun t ht => hafter t (h.named t ht).2, h.sorted⟩, ?_⟩
  intro t ht
  rcases mem_cons.mp ht with rfl | ht
  · exact ⟨hs, hfrom⟩
  · refine ⟨(h.named t ht).1, fun hb => hfrom ?_⟩
    exact (hafter t (h.named t ht).2).trans hb

/-- A walk that ends has given all sections from its place on; one that does
not end in time has given a section in each round. -/
theorem visits_spec (left : Nat) : ∀ {it : Iterate}, IterateInv files name it →
    match visits files name left it with
    | some l => Walked files name it l ∧
        ∀ s : Nat × Nat, Named files name s.1 s.2 → ¬Before (key files s) it.place → s ∈ l
    | none => ∃ l, l.length = left ∧ Walked files name it l := by
  induction left with
  | zero => exact fun _ => ⟨[], rfl, List.Pairwise.nil, fun s hs => absurd hs not_mem_nil⟩
  | succ left ih =>
    intro it hinv
    have hnext := iterateNext_spec hinv
    rw [visits]
    rcases hr : iterateNext files (some name) it with ⟨_ | s, it'⟩
    · rw [hr] at hnext
      exact ⟨⟨List.Pairwise.nil, fun s hs => absurd hs not_mem_nil⟩,
        fun s hs hfrom => absurd (hnext.none rfl s.1 s.2 hs) hfrom⟩
    rw [hr] at hnext
    dsimp only
    obtain ⟨hs, hfrom, hleast, hplace, hinv'⟩ := hnext.found s rfl
    have h := ih hinv'
    rcases hv : visits files name left it' with _ | l
    · rw [hv] at h
      obtain ⟨l, hlen, hw⟩ := h
      exact ⟨s :: l, by rw [length_cons, hlen], hw.cons hnext⟩
    rw [hv] at h
    refine ⟨h.1.cons hnext, fun t ht hfrom' => ?_⟩
    by_cases he : t = s
    · exact he ▸ mem_cons_self
    refine mem_cons_of_mem _ (h.2 t ht fun hb => ?_)
    rw [hplace, before_succ] at hb
    rcases hb with hb | hb
    · exact hleast t.1 t.2 ht hfrom' hb
    · exact he (key_injective hb)

def allSections (files : List OFile) : List (Nat × Nat) :=
  (range files.length).flatMap fun i =>
    (range ((header files i).word 2)).map fun j => (i, j)

theorem allSections_length (files : List OFile) :
    (allSections files).length = sectionCount files := by
  rw [allSections, length_flatMap, sectionCount]
  congr 1
  refine ext_getElem (by simp) fun i h1 h2 => ?_
  have hi : i < files.length := by simpa using h2
  simp [header, hi]

theorem Named.mem_allSections {s : Nat × Nat} (h : Named files name s.1 s.2) :
    s ∈ allSections files := by
  refine mem_flatMap.mpr ⟨s.1, mem_range.mpr h.1, ?_⟩
  exact mem_map.mpr ⟨s.2, mem_range.mpr h.2.lt, rfl⟩

/-- **Each section once.** The walk over the sections of a name ends; it gives
them all, ordered by groups, files and sections. -/
theorem visits_all (files : List OFile) (name : List UInt8) :
    ∃ l, visits files name (sectionCount files + 1) iterateInit = some l ∧
      l.Pairwise (SectionBefore files) ∧ ∀ s, s ∈ l ↔ Named files name s.1 s.2 := by
  have h := (@visits_spec files name) (sectionCount files + 1) IterateInv.init
  have hzero : ∀ s : Nat × Nat, ¬Before (key files s) iterateInit.place := by
    simp only [Before, Iterate.place, iterateInit, key, earlier_iff]
    omega
  rcases hv : visits files name (sectionCount files + 1) iterateInit with _ | l
  · -- more sections than there are
    rw [hv] at h
    obtain ⟨l, hlen, hw⟩ := h
    have hnodup : l.Nodup := by
      refine List.Pairwise.imp (fun {s t} hb he => ?_) hw.sorted
      exact Before.irrefl (key files s) (he ▸ hb)
    have hsub := hnodup.subperm fun s hs => (hw.named s hs).1.mem_allSections
    have := hsub.length_le
    rw [allSections_length] at this
    omega
  · rw [hv] at h
    exact ⟨l, rfl, h.1.sorted, fun s => ⟨fun hs => (h.1.named s hs).1,
      fun hs => h.2 s hs (hzero s)⟩⟩

variable {files files' files'' : List OFile}

theorem alignOf_eq (bit : Nat) : ∃ k, k ≤ 14 ∧ alignOf bit = 2 ^ k := by
  have hle : (bit &&& 0x00F00000) >>> 20 ≤ 15 := by
    rw [Nat.shiftRight_and_distrib]
    exact Nat.and_le_right
  rw [alignOf]
  split
  · exact ⟨(bit &&& 0x00F00000) >>> 20 - 1, by omega, Nat.one_shiftLeft _⟩
  · exact ⟨4, by omega, rfl⟩

variable {total : Nat} {d d' : Bytes}

theorem alignUp_eq {k : Nat} (hk : k ≤ 14) (h : total + (2 ^ k - 1) < 2 ^ 32) :
    alignUp total (2 ^ k - 1) = (total + (2 ^ k - 1)) / 2 ^ k * 2 ^ k := by
  have hpos : 2 ^ k - 1 + 1 = 2 ^ k := Nat.sub_add_cancel (Nat.two_pow_pos k)
  rw [alignUp, Nat.mod_eq_of_lt h, hpos, and_high_bits (le_trans hk (by decide)) h]

/-- `t` is the least multiple of `align` from `total` on. -/
structure NextMultiple (align total t : Nat) : Prop where
  dvd : align ∣ t
  le : total ≤ t
  least : ∀ m, align ∣ m → total ≤ m → t ≤ m

theorem nextMultiple_alignUp {bit : Nat} (h : total + (alignOf bit - 1) < 2 ^ 32) :
    NextMultiple (alignOf bit) total (alignUp total (alignOf bit - 1)) ∧
      alignUp total (alignOf bit - 1) ≤ total + (alignOf bit - 1) := by
  obtain ⟨k, hle14, hk⟩ := alignOf_eq bit
  rw [hk] at h ⊢
  have hpos : 0 < 2 ^ k := Nat.two_pow_pos k
  rw [alignUp_eq hle14 h]
  have hle := Nat.div_mul_le_self (total + (2 ^ k - 1)) (2 ^ k)
  have hdiv := Nat.div_add_mod' (total + (2 ^ k - 1)) (2 ^ k)
  refine ⟨⟨Nat.dvd_mul_left _ _, by omega, ?_⟩, hle⟩
  rintro m ⟨c, rfl⟩ hm
  rw [mul_comm (2 ^ k) c] at hm ⊢
  refine Nat.mul_le_mul_right _ ?_
  rw [← Nat.lt_succ_iff, Nat.div_lt_iff_lt_mul hpos, Nat.succ_mul]
  omega

/-! ## What the iterator reads -/

/-- The bytes where the headers of the sections keep their offsets. -/
def OffsetField (k : Nat) : Prop := ∃ j, sect j + 12 ≤ k ∧ k < sect j + 16

/-- Two buffers that agree but for the offsets. -/
def SameHeads (d d' : Bytes) : Prop := ∀ k, ¬OffsetField k → d' k = d k

/-- The files of which the offsets have been changed. -/
abbrev Relocated (files files' : List OFile) : Prop :=
  List.Forall₂ (fun f f' => SameHeads f.data f'.data) files files'

theorem not_offsetField {j r : Nat} (h : r < 12 ∨ 16 ≤ r ∧ r < 40) :
    ¬OffsetField (sect j + r) := by
  rintro ⟨i, hi⟩
  simp only [sect] at hi
  omega

theorem SameHeads.word (h : SameHeads d d') : d'.word 2 = d.word 2 := by
  have hout : ∀ k, k < 20 → ¬OffsetField k := by
    rintro k hk ⟨j, hj⟩
    simp only [sect] at hj
    omega
  exact Bytes.word_congr (h 2 (hout 2 (by omega))) (h 3 (hout 3 (by omega)))

theorem SameHeads.dword {j r : Nat} (h : SameHeads d d') (hr : r + 4 ≤ 12 ∨ 16 ≤ r ∧ r + 4 ≤ 40) :
    d'.dword (sect j + r) = d.dword (sect j + r) := by
  refine Bytes.dword_congr fun k hk => ?_
  rw [add_assoc]
  exact h _ (not_offsetField (by omega))

theorem sameName_congr {n : Nat} {name : List UInt8} : ∀ {i : Nat},
    (∀ k, i ≤ k → k < i + n → d' k = d k) → sameName n d' i name = sameName n d i name := by
  induction n generalizing name with
  | zero => exact fun _ => rfl
  | succ n ih =>
    intro i h
    cases name with
    | nil => rw [sameName, sameName, h i (by omega) (by omega)]
    | cons c name =>
      rw [sameName, sameName, h i (by omega) (by omega),
        ih fun k hk hk' => h k (by omega) (by omega)]

theorem SameHeads.names (h : SameHeads d d') (j : Nat) :
    sameName 8 d' (sect j) name = sameName 8 d (sect j) name := by
  refine sameName_congr fun k hk hk' => ?_
  obtain ⟨r, rfl⟩ := Nat.exists_eq_add_of_le hk
  exact h _ (not_offsetField (by omega))

theorem secLoop_congr (h : SameHeads d d') (g : Nat) : ∀ left j m,
    secLoop d' (some name) g left j m = secLoop d (some name) g left j m := by
  intro left
  induction left with
  | zero => exact fun _ _ => rfl
  | succ left ih =>
    intro j m
    rw [secLoop, secLoop]
    rw [h.names, h.dword (.inr ⟨by omega, by omega⟩)]
    simp only [ih]

section

variable (h : Relocated files files')
include h

theorem objLoop_congr (g : Nat) : ∀ i sec m,
    objLoop (some name) g files' i sec m = objLoop (some name) g files i sec m := by
  induction h with
  | nil => simp
  | cons h _ ih =>
    intro i sec m
    rw [objLoop, objLoop, h.word, secLoop_congr h]
    simp only [ih]

theorem grpLoop_congr : ∀ rounds it,
    grpLoop files' (some name) rounds it = grpLoop files (some name) rounds it := by
  intro rounds
  induction rounds with
  | zero => exact fun _ => rfl
  | succ rounds ih =>
    intro it
    rw [grpLoop, grpLoop, objLoop_congr (forall₂_drop _ h)]
    simp only [ih]

/-- The iterator goes the same way in files whose offsets have been changed. -/
theorem iterateNext_congr (it : Iterate) :
    iterateNext files' (some name) it = iterateNext files (some name) it :=
  grpLoop_congr h (2 ^ 32) it

end

theorem Relocated.refl : ∀ files, Relocated files files
  | [] => .nil
  | _ :: files => .cons (fun _ _ => rfl) (Relocated.refl files)

theorem Relocated.headers (h : Relocated files files') : ∀ i,
    SameHeads (header files i) (header files' i) := by
  induction h with
  | nil => exact fun _ _ _ => rfl
  | cons h _ ih =>
    intro i
    cases i with
    | zero => exact h
    | succ i => exact ih i

theorem Relocated.modify (h : Relocated files files') (v j : Nat) : ∀ i,
    Relocated files (files'.modify i fun f =>
      { f with data := (header files' i).setDword (sect j + 12) v }) := by
  induction h with
  | nil =>
    intro i
    cases i <;> exact .nil
  | cons h htail ih =>
    intro i
    cases i with
    | zero =>
      refine .cons (fun k hk => ?_) htail
      refine (Bytes.setDword_of_ne ?_).trans (h k hk)
      by_contra hin
      exact hk ⟨j, by omega⟩
    | succ i => exact .cons h (ih i)

/-! ## Places one after the other -/

def sectionSize (files : List OFile) (s : Nat × Nat) : Nat :=
  (header files s.1).dword (sect s.2 + 16)

/-- Where the data of a section is in its file. -/
def sectionData (files : List OFile) (s : Nat × Nat) : Nat :=
  (header files s.1).dword (sect s.2 + 20)

/-- The alignment of a section, from its header. -/
def alignment (files : List OFile) (s : Nat × Nat) : Nat :=
  alignOf ((header files s.1).dword (sect s.2 + 36))

/-- The offset of a section behind `total` bytes. -/
def offsetOf (files : List OFile) (total : Nat) (s : Nat × Nat) : Nat :=
  alignUp total (alignment files s - 1)

/-- The sections with their offsets, from `total` on. -/
def placed (files : List OFile) : List (Nat × Nat) → (total : Nat) → List (Nat × Nat × Nat)
  | [], _ => []
  | s :: l, total =>
    (s.1, s.2, offsetOf files total s) ::
      placed files l (offsetOf files total s + sectionSize files s)

def placedEnd (files : List OFile) : List (Nat × Nat) → (total : Nat) → Nat
  | [], total => total
  | s :: l, total => placedEnd files l (offsetOf files total s + sectionSize files s)

/-- The sums stay below the largest `int`. -/
def Fits (files : List OFile) : List (Nat × Nat) → (total : Nat) → Prop
  | [], _ => True
  | s :: l, total =>
    total + (alignment files s - 1) < INT_MAX ∧
      offsetOf files total s + sectionSize files s < INT_MAX ∧
      Fits files l (offsetOf files total s + sectionSize files s)

/-- Sections from `total` to `last`, each at the next multiple of its alignment. -/
inductive Placed (files : List OFile) : (total : Nat) → List (Nat × Nat × Nat) → (last : Nat) → Prop
  | nil (total : Nat) : Placed files total [] total
  | cons {total last i j t : Nat} {l : List (Nat × Nat × Nat)}
      (next : NextMultiple (alignment files (i, j)) total t)
      (rest : Placed files (t + sectionSize files (i, j)) l last) :
      Placed files total ((i, j, t) :: l) last

theorem placed_spec : ∀ {total : Nat}, Fits files l total →
    Placed files total (placed files l total) (placedEnd files l total) := by
  induction l with
  | nil => exact fun _ => .nil _
  | cons s l ih =>
    rintro total ⟨hsum, -, hrest⟩
    exact .cons (nextMultiple_alignUp (lt_trans hsum (by decide))).1 (ih hrest)

theorem placed_sections (l : List (Nat × Nat)) : ∀ total : Nat,
    (placed files l total).map (fun v => (v.1, v.2.1)) = l := by
  induction l with
  | nil => exact fun _ => rfl
  | cons s l ih =>
    simp [placed, ih]

theorem Placed.le {last : Nat} {l : List (Nat × Nat × Nat)} (h : Placed files total l last) :
    ∀ v ∈ l, total ≤ v.2.2 := by
  induction h with
  | nil => simp
  | cons next rest ih =>
    intro v hv
    rcases mem_cons.mp hv with rfl | hv
    · exact next.le
    · exact Nat.le_trans next.le (Nat.le_trans (Nat.le_add_right _ _) (ih v hv))

theorem Placed.disjoint {last : Nat} {l : List (Nat × Nat × Nat)} (h : Placed files total l last) :
    l.Pairwise fun u v => u.2.2 + sectionSize files (u.1, u.2.1) ≤ v.2.2 := by
  induction h with
  | nil => exact .nil
  | cons next rest ih => exact .cons rest.le ih

/-- The loop answers with the end of the last section, or with `INT_MAX` when the
sums do not stay below it. -/
theorem dataSizeLoop_spec (left : Nat) : ∀ {it : Iterate} {a : AlignBits} {total : Nat}
    {l : List (Nat × Nat)}, total < INT_MAX → visits files name left it = some l →
    ∃ size a', dataSizeLoop files name left it a total = some (size, a') ∧
      (Fits files l total ∧ size < INT_MAX ∧ size = placedEnd files l total ∨
        ¬ Fits files l total ∧ size = INT_MAX) := by
  induction left with
  | zero => exact fun _ h => by cases h
  | succ left ih =>
    intro it a total l htotal hl
    rw [visits] at hl
    rw [dataSizeLoop]
    rcases hr : iterateNext files (some name) it with ⟨_ | ⟨i, j⟩, it'⟩
    · rw [hr] at hl
      cases hl
      exact ⟨total, a, rfl, .inl ⟨trivial, htotal, rfl⟩⟩
    rw [hr] at hl
    obtain ⟨l, hl', rfl⟩ := Option.map_eq_some_iff.mp hl
    dsimp only
    generalize raise (name.getD 1 0) ((header files i).dword (sect j + 36)) a = a'
    by_cases hsum : total < INT_MAX - (alignment files (i, j) - 1)
    · by_cases hadd : sectionSize files (i, j) < INT_MAX
      · by_cases hfit : offsetOf files total (i, j) < INT_MAX - sectionSize files (i, j)
        · -- the section is added
          have hend : offsetOf files total (i, j) + sectionSize files (i, j) < INT_MAX := by omega
          obtain ⟨size, b, hloop, hsize⟩ := @ih _ a' _ _ hend hl'
          refine ⟨size, b, ?_, ?_⟩
          · rw [← hloop]
            exact (if_pos hsum).trans ((if_pos hadd).trans (if_pos hfit))
          · rcases hsize with ⟨hrest, hsize⟩ | ⟨hrest, hsize⟩
            · exact .inl ⟨⟨by omega, hend, hrest⟩, hsize⟩
            · exact .inr ⟨fun hfits => hrest hfits.2.2, hsize⟩
        · refine ⟨INT_MAX, a', (if_pos hsum).trans ((if_pos hadd).trans (if_neg hfit)),
            .inr ⟨fun hfits => ?_, rfl⟩⟩
          have := hfits.2.1
          omega
      · refine ⟨INT_MAX, a', (if_pos hsum).trans (if_neg hadd), .inr ⟨fun hfits => ?_, rfl⟩⟩
        have := hfits.2.1
        omega
    · refine ⟨INT_MAX, a', if_neg hsum, .inr ⟨fun hfits => ?_, rfl⟩⟩
      have := hfits.1
      omega

/-! ## Copying -/

/-- The sections of a walk, copied one after the other. -/
def copyAll (l : List (Nat × Nat)) (c : Copied) : Copied :=
  l.foldl (fun c s => copySection c s.1 s.2) c

structure Copy (files : List OFile) (c : Copied) (s : Nat × Nat) (c' : Copied) : Prop where
  relocated : Relocated files c'.files
  total : c'.total = offsetOf files c.total s + sectionSize files s
  visited : c'.visited = c.visited ++ [(s.1, s.2, offsetOf files c.total s)]
  kept : ∀ i k, (i = s.1 → k < sect s.2 + 12 ∨ sect s.2 + 16 ≤ k) →
    header c'.files i k = header c.files i k
  recorded : s.1 < files.length →
    (header c'.files s.1).dword (sect s.2 + 12) = offsetOf files c.total s % 2 ^ 32
  out : c'.out = c.out.map fun out => out.copy (offsetOf files c.total s) (header c'.files s.1)
    (sectionData files s) (sectionSize files s)

theorem header_modify {g : OFile → OFile} : ∀ {files : List OFile}, i < files.length →
    header (files.modify i g) i = (g (files[i]?.getD ⟨fun _ => 0, 0, 0⟩)).data := by
  intro files hi
  simp [header, hi]

theorem header_modify_ne {i i' : Nat} {g : OFile → OFile} (h : i' ≠ i) :
    header (files.modify i g) i' = header files i' := by
  simp [header, Ne.symm h]

theorem copySection_spec {c : Copied} (h : Relocated files c.files) {i j : Nat}
    (hi : i < files.length) : Copy files c (i, j) (copySection c i j) := by
  have hhead := h.headers i
  have hadd : (header c.files i).dword (sect j + 16) = sectionSize files (i, j) :=
    hhead.dword (.inr ⟨by omega, by omega⟩)
  have hoff : (header c.files i).dword (sect j + 20) = sectionData files (i, j) :=
    hhead.dword (.inr ⟨by omega, by omega⟩)
  have hbit : alignOf ((header c.files i).dword (sect j + 36)) = alignment files (i, j) :=
    congrArg alignOf (hhead.dword (.inr ⟨by omega, by omega⟩))
  have hlen : i < c.files.length := by
    rwa [← h.length_eq]
  have htotal : alignUp c.total (alignOf ((header c.files i).dword (sect j + 36)) - 1)
      = offsetOf files c.total (i, j) := by
    rw [hbit, offsetOf]
  have hself : header (copySection c i j).files i
      = (header c.files i).setDword (sect j + 12) (offsetOf files c.total (i, j)) := by
    rw [← htotal]
    exact header_modify hlen
  refine ⟨h.modify _ _ _, ?_, ?_, fun i' k hk => ?_, fun _ => ?_, ?_⟩
  · rw [← htotal, ← hadd]
    rfl
  · rw [← htotal]
    rfl
  · by_cases he : i' = i
    · subst he
      rw [hself]
      exact Bytes.setDword_of_ne (hk rfl)
    · exact congrFun (header_modify_ne he) k
  · rw [hself]
    exact Bytes.dword_setDword
  rw [hself, ← htotal, ← hadd, ← hoff]
  refine congrArg (c.out.map ·) (funext fun out => ?_)
  by_cases hzero : (header c.files i).dword (sect j + 16) ≠ 0
  · exact if_pos hzero
  · refine (if_neg hzero).trans ?_
    rw [not_not.mp hzero, Bytes.copy_zero]

/-- The walk of `section_copy_d` is the walk over the files as they were. -/
theorem copyLoop_eq (left : Nat) : ∀ {it : Iterate} {l : List (Nat × Nat)} {c : Copied},
    Relocated files c.files → (∀ s ∈ l, s.1 < files.length) →
    visits files name left it = some l → copyLoop name left it c = some (copyAll l c) := by
  induction left with
  | zero => exact fun _ _ h => by cases h
  | succ left ih =>
    intro it l c hrel hlen hl
    rw [visits] at hl
    rw [copyLoop, iterateNext_congr hrel]
    rcases hr : iterateNext files (some name) it with ⟨_ | ⟨i, j⟩, it'⟩
    · rw [hr] at hl
      cases hl
      rfl
    rw [hr] at hl
    obtain ⟨l, hl', rfl⟩ := Option.map_eq_some_iff.mp hl
    have hi : i < files.length := hlen (i, j) mem_cons_self
    exact ih (copySection_spec hrel hi).relocated
      (fun s hs => hlen s (.tail _ hs)) hl'

structure CopiedAll (files : List OFile) (l : List (Nat × Nat)) (c c' : Copied) : Prop where
  total : c'.total = placedEnd files l c.total
  visited : c'.visited = c.visited ++ placed files l c.total
  kept : ∀ i k, (∀ j, (i, j) ∈ l → k < sect j + 12 ∨ sect j + 16 ≤ k) →
    header c'.files i k = header c.files i k
  recorded : ∀ v ∈ placed files l c.total, (header c'.files v.1).dword (sect v.2.1 + 12) = v.2.2
  out : ∀ out, c.out = some out → ∃ out', c'.out = some out' ∧
    (∀ k, (∀ v ∈ placed files l c.total,
      k < v.2.2 ∨ v.2.2 + sectionSize files (v.1, v.2.1) ≤ k) → out' k = out k) ∧
    ∀ v ∈ placed files l c.total, ∀ k < sectionSize files (v.1, v.2.1),
      ¬OffsetField (sectionData files (v.1, v.2.1) + k) →
        out' (v.2.2 + k) = header files v.1 (sectionData files (v.1, v.2.1) + k)

theorem copyAll_spec : ∀ {c : Copied}, Relocated files c.files →
    (∀ s ∈ l, s.1 < files.length) → l.Nodup → Fits files l c.total →
    CopiedAll files l c (copyAll l c) := by
  induction l with
  | nil =>
    intro c _ _ _ _
    refine ⟨rfl, (append_nil _).symm, fun _ _ _ => rfl, fun v hv => ?_,
      fun out hout => ⟨out, hout, fun _ _ => rfl, fun v hv => ?_⟩⟩
    · cases hv
    · exact absurd hv not_mem_nil
  | cons s l ih =>
    intro c hrel hlen hnodup hfits
    obtain ⟨i, j⟩ := s
    obtain ⟨hnot, hnodup⟩ := nodup_cons.mp hnodup
    have hi : i < files.length := hlen (i, j) mem_cons_self
    have hone := copySection_spec (j := j) hrel hi
    obtain ⟨c₁, hc₁⟩ : ∃ c₁, c₁ = copySection c i j := ⟨_, rfl⟩
    rw [← hc₁] at hone
    have hrest : Fits files l c₁.total := hone.total ▸ hfits.2.2
    have h := ih hone.relocated (fun s hs => hlen s (.tail _ hs)) hnodup hrest
    have hall : copyAll ((i, j) :: l) c = copyAll l c₁ := by
      rw [hc₁]
      rfl
    have hplaced : placed files ((i, j) :: l) c.total
        = (i, j, offsetOf files c.total (i, j)) :: placed files l c₁.total := by
      rw [hone.total]
      rfl
    rw [hall]
    -- the rest comes behind this section
    have hbehind : ∀ v ∈ placed files l c₁.total,
        offsetOf files c.total (i, j) + sectionSize files (i, j) ≤ v.2.2 := by
      rw [← hone.total]
      exact (placed_spec hrest).le
    refine ⟨?_, ?_, fun i' k hk => ?_, fun v hv => ?_, fun out hout => ?_⟩
    · rw [h.total, hone.total]
      rfl
    · rw [h.visited, hone.visited, hplaced, append_assoc]
      rfl
    · refine (h.kept i' k fun j' hj' => hk j' (.tail _ hj')).trans
        (hone.kept i' k fun he => ?_)
      exact hk j (he ▸ mem_cons_self)
    · rw [hplaced] at hv
      rcases mem_cons.mp hv with rfl | hv
      · -- the other sections leave this offset as it is
        have hlt : offsetOf files c.total (i, j) < 2 ^ 32 := by
          have hint : INT_MAX < 2 ^ 32 := by decide
          have hsum := hfits.2.1
          omega
        have hrec := hone.recorded hi
        rw [Nat.mod_eq_of_lt hlt] at hrec
        rw [← hrec]
        refine Bytes.dword_congr fun k hk => h.kept i _ fun j' hj' => ?_
        have hne : j' ≠ j := fun he => hnot (he ▸ hj')
        simp only [sect]
        omega
      · exact h.recorded v hv
    · obtain ⟨out', hout', hsame, hcopied⟩ := h.out _ (by rw [hone.out, hout]; rfl)
      refine ⟨out', hout', fun k hk => ?_, fun v hv k hk hfield => ?_⟩
      · rw [hplaced] at hk
        rw [hsame k fun v hv => hk v (.tail _ hv)]
        exact Bytes.copy_outside (hk _ mem_cons_self)
      rw [hplaced] at hv
      rcases mem_cons.mp hv with rfl | hv
      · dsimp only at hk ⊢
        rw [hsame _ fun v hv => .inl (by have := hbehind v hv; omega)]
        refine (Bytes.copy_inside (by omega) (by omega)).trans ?_
        rw [Nat.add_sub_cancel_left]
        exact hone.relocated.headers i _ hfield
      · exact hcopied v hv k hk hfield

/-- What is known of the sections of a name that have been placed, and of the
output and the headers: `c` is what `section_copy_d` leaves. -/
structure SectionLayout (files : List OFile) (name : List UInt8) (out : Option Bytes)
    (c : Copied) : Prop where
  /-- Ordered by groups, then files, then sections: none comes twice. -/
  order : (c.visited.map fun v => (v.1, v.2.1)).Pairwise (SectionBefore files)
  all : ∀ s, s ∈ c.visited.map (fun v => (v.1, v.2.1)) ↔ Named files name s.1 s.2
  placed : Placed files 0 c.visited c.total
  disjoint : c.visited.Pairwise fun u v => u.2.2 + sectionSize files (u.1, u.2.1) ≤ v.2.2
  recorded : ∀ v ∈ c.visited, (sectionReloc c.files v.1 (v.2.1 + 1)).1 = v.2.2
  kept : ∀ i k, (∀ j, Named files name i j → k < sect j + 12 ∨ sect j + 16 ≤ k) →
    header c.files i k = header files i k
  copied : ∀ old, out = some old → ∃ new, c.out = some new ∧ (∀ k, (∀ v ∈ c.visited,
      k < v.2.2 ∨ v.2.2 + sectionSize files (v.1, v.2.1) ≤ k) → new k = old k) ∧
    ∀ v ∈ c.visited, ∀ k < sectionSize files (v.1, v.2.1),
      ¬OffsetField (sectionData files (v.1, v.2.1) + k) →
        new (v.2.2 + k) = header files v.1 (sectionData files (v.1, v.2.1) + k)

/-- **The layout is the one that was sized.** Sizing ends, and answers `INT_MAX` just
when the sections of the name, in their order and each at the next multiple of its
alignment, do not stay below it. If they do, copying ends with the size that was
answered: each section has been placed once, in the order of the groups, at the next
multiple of its alignment, and its header keeps the offset. -/
theorem sectionCopyD_layout (files : List OFile) (name : List UInt8) (a : AlignBits)
    (out : Option Bytes) :
    ∃ l size a', l.Pairwise (SectionBefore files) ∧
      (∀ s, s ∈ l ↔ Named files name s.1 s.2) ∧
      sectionDataSize files name a = some (size, a') ∧
      (Fits files l 0 ∧ size < INT_MAX ∧
          (∃ c, sectionCopyD files name out = some c ∧ c.total = size ∧
            SectionLayout files name out c) ∨
        ¬ Fits files l 0 ∧ size = INT_MAX) := by
  obtain ⟨l, hl, horder, hall⟩ := visits_all files name
  obtain ⟨size, a', hsize, hsum⟩ := @dataSizeLoop_spec _ _ _ _ a 0 _ (by decide) hl
  refine ⟨l, size, a', horder, hall, hsize, hsum.imp_left ?_⟩
  rintro ⟨hfits, hlt, rfl⟩
  refine ⟨hfits, hlt, ?_⟩
  have hlen : ∀ s ∈ l, s.1 < files.length := fun s hs => ((hall s).mp hs).1
  have hnodup : l.Nodup := by
    refine List.Pairwise.imp (fun {s t} hb he => ?_) horder
    exact Before.irrefl (key files s) (he ▸ hb)
  have h := copyAll_spec (c := ⟨files, out, 0, []⟩) (Relocated.refl files) hlen hnodup hfits
  refine ⟨_, copyLoop_eq _ (c := ⟨files, out, 0, []⟩) (Relocated.refl files) hlen hl, h.total, ?_⟩
  have hvisited : (copyAll l ⟨files, out, 0, []⟩).visited = Dancy.Link.placed files l 0 :=
    h.visited
  have hplaced := placed_spec hfits
  have hsections := @placed_sections files l 0
  refine ⟨?_, fun s => ?_, ?_, ?_, fun v hv => ?_, fun i k hk => ?_, ?_⟩
  · rw [hvisited, hsections]
    exact horder
  · rw [hvisited, hsections]
    exact hall s
  · rw [hvisited, h.total]
    exact hplaced
  · rw [hvisited]
    exact hplaced.disjoint
  · rw [hvisited] at hv
    exact h.recorded v hv
  · exact h.kept i k fun j hj => hk j ((hall (i, j)).mp hj)
  · rw [hvisited]
    exact h.out

/-- A file with two sections of 5 and 3 bytes. -/
def twoSections : List OFile :=
  let header (size : UInt8) := [46, 116, 101, 120, 116] ++ replicate 11 0 ++ [size] ++ replicate 23 0
  let bytes := [0x64, 0x86, 2, 0] ++ replicate 16 0 ++ header 5 ++ header 3
  [⟨fun i => bytes.getD i 0, 100, 0⟩]

theorem sectionCopyD_layout_two : ∃ c,
    sectionCopyD twoSections [46, 116, 101, 120, 116] none = some c ∧ c.total = 19 ∧
      SectionLayout twoSections [46, 116, 101, 120, 116] none c := by
  obtain ⟨l, size, a', -, -, hsize, hlayout⟩ :=
    sectionCopyD_layout twoSections [46, 116, 101, 120, 116] ⟨0, 0, 0, 0⟩ none
  have hsized : (sectionDataSize twoSections [46, 116, 101, 120, 116] ⟨0, 0, 0, 0⟩).map Prod.fst =
      some 19 := by decide
  rw [hsize] at hsized
  cases hsized
  rcases hlayout with ⟨-, -, hlayout⟩ | ⟨-, habsurd⟩
  · exact hlayout
  · exact absurd habsurd (by decide)

end Dancy.Link
