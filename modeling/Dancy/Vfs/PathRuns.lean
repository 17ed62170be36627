import Dancy.Vfs.Path

/-!
# What the paths of the file system mean

`vfs_realpath` writes the names of a node's owners, and `build_vname_locked`
makes of a name the components that `Pieces.resolve` gives for it.
-/

namespace Dancy.Vfs

open Dancy.Lib Dancy.Lib.Pieces Dancy.Syscall Dancy.FatVfs List Function Option

/-- A node below `top`, which has no owner, and the names on the way. -/
inductive Lineage (t : VfsTree) (top : Nat) : Nat → List (List Nat) → Prop where
  | top (h : (t.node top).tree0 = none) : Lineage t top top []
  | child {owner n : Nat} {names : List (List Nat)} (h : Lineage t top owner names)
      (hn : (t.node n).tree0 = some owner) : Lineage t top n (names ++ [(t.node n).name.bytes])

variable {t : VfsTree} {top n fuel size : Nat} {names : List (List Nat)}

section

variable (h : Lineage t top n names)
include h

theorem Lineage.depth : ∀ fuel, names.length < fuel → t.depth fuel n = some names.length := by
  induction h with
  | top h =>
    intro fuel hf
    obtain ⟨fuel, rfl⟩ : ∃ k, fuel = k + 1 := ⟨fuel - 1, by omega⟩
    simp only [VfsTree.depth, h, length_nil]
  | child h hn ih =>
    intro fuel hf
    obtain ⟨fuel, rfl⟩ : ∃ k, fuel = k + 1 := ⟨fuel - 1, by omega⟩
    rw [length_append, length_singleton] at hf ⊢
    simp only [VfsTree.depth, hn, ih fuel (by omega), map_some]

theorem Lineage.eq_top (hnil : names = []) : n = top := by
  cases h with
  | top => rfl
  | child => simp at hnil

/-- The owner `k` steps above a node has the name that is `k` before the last. -/
theorem Lineage.above : ∀ k, k < names.length →
    ∃ m, t.above k n = some m ∧ names[names.length - 1 - k]? = some (t.node m).name.bytes := by
  induction h with
  | top h => intro k hk; cases hk
  | @child owner n names h hn ih =>
    intro k hk
    rw [length_append, length_singleton] at hk ⊢
    cases k with
    | zero => exact ⟨n, rfl, by simp⟩
    | succ k =>
      obtain ⟨m, hm, hname⟩ := ih k (by omega)
      refine ⟨m, by simp only [VfsTree.above, hn, bind_some, hm], ?_⟩
      rw [getElem?_append_left (by omega), ← hname]
      congr 1
      omega

end

/-! ## `vfs_realpath` -/

/-- The path of a node, given the names on the way from the top. -/
def pathText (names : List (List Nat)) : List Nat :=
  if names = [] then [0x2F] else names.flatMap (0x2F :: ·)

/-- The bytes of a list at a place of a buffer. -/
def HoldsAt (b : Memory) (s : Nat) (l : List Nat) : Prop :=
  ∀ i (h : i < l.length), b (s + i) = l[i]

variable {b : Memory} {name : List Nat}

theorem HoldsAt.append {s : Nat} {l l' : List Nat} (h : HoldsAt b s l)
    (h' : HoldsAt b (s + l.length) l') : HoldsAt b s (l ++ l') := by
  intro i hi
  rw [length_append] at hi
  by_cases hlt : i < l.length
  · rw [getElem_append_left hlt]
    exact h i hlt
  · rw [getElem_append_right (by omega), ← h' (i - l.length) (by omega)]
    congr 1
    omega

theorem HoldsAt.congr {b b' : Memory} {s : Nat} {l : List Nat} (h : HoldsAt b s l)
    (he : ∀ k, s ≤ k → k < s + l.length → b' k = b k) : HoldsAt b' s l :=
  fun i hi => (he (s + i) (by omega) (by omega)).trans (h i hi)

theorem putBytes_spec (size : Nat) : ∀ (l : List Nat) (b : Memory) (s : Nat),
    (l ≠ [] → size ≤ s + l.length → putBytes size l b s = none) ∧
      (s + l.length < size → ∃ b', putBytes size l b s = some (b', s + l.length) ∧
        HoldsAt b' s l ∧ ∀ k, k < s ∨ s + l.length ≤ k → b' k = b k) := by
  intro l
  induction l with
  | nil =>
    intro b s
    exact ⟨fun h => absurd rfl h, fun _ => ⟨b, rfl, fun i hi => absurd hi (by simp), fun _ _ => rfl⟩⟩
  | cons c l ih =>
    intro b s
    rw [length_cons]
    obtain ⟨hfull, hfits⟩ := ih (update b s c) (s + 1)
    refine ⟨fun _ hle => ?_, fun hlt => ?_⟩
    · rw [putBytes]
      split
      · rfl
      refine hfull ?_ (by omega)
      rintro rfl
      simp only [length_nil] at hle
      omega
    · obtain ⟨b', hput, hholds, hsame⟩ := hfits (by omega)
      refine ⟨b', ?_, ?_, fun k hk => ?_⟩
      · rw [putBytes, if_neg (by omega), hput]
        congr 2
        omega
      · intro i hi
        cases i with
        | zero => rw [hsame (s + 0) (by omega)]; simp
        | succ i =>
          rw [getElem_cons_succ, ← hholds i (by simpa using hi)]
          congr 1
          omega
      · rw [hsame k (by omega), update_of_ne (by omega)]

theorem putNames_succ (size : Nat) {left m : Nat} (hm : t.above left n = some m)
    (hname : (t.node m).name.bytes ≠ []) (b : Memory) (s : Nat) :
    putNames t n size (left + 1) b s =
      match putBytes size (0x2F :: (t.node m).name.bytes) b s with
      | none => some (some .overflow, clearBuffer b size, s)
      | some (b, s) => putNames t n size left b s := by
  rw [putNames, hm, bind_some]
  exact if_neg hname

theorem putNames_spec (size : Nat) (h : Lineage t top n names) (hne : ∀ x ∈ names, x ≠ []) :
    ∀ (left : Nat), left ≤ names.length → ∀ (b : Memory) (s : Nat), s < size →
      ∀ text, text = (names.drop (names.length - left)).flatMap (0x2F :: ·) →
      (size ≤ s + text.length → ∃ b' s', putNames t n size left b s = some (some .overflow, b', s') ∧
          ∀ k, size ≤ k → b' k = b k) ∧
        (s + text.length < size → ∃ b', putNames t n size left b s = some (none, b', s + text.length) ∧
          HoldsAt b' s text ∧ ∀ k, k < s ∨ s + text.length ≤ k → b' k = b k) := by
  intro left
  induction left with
  | zero =>
    intro _ b s hs text htext
    rw [Nat.sub_zero, drop_length, flatMap_nil] at htext
    subst htext
    refine ⟨fun hle => absurd hle (by simp; omega), fun _ => ⟨b, rfl, ?_, fun _ _ => rfl⟩⟩
    exact fun i hi => absurd hi (by simp)
  | succ left ih =>
    intro hleft b s hs text htext
    obtain ⟨m, hm, hname⟩ := h.above left (by omega)
    obtain ⟨hlt, hget⟩ := List.getElem?_eq_some_iff.mp hname
    have hdrop : names.drop (names.length - (left + 1)) =
        (t.node m).name.bytes :: names.drop (names.length - left) := by
      rw [show names.length - (left + 1) = names.length - 1 - left by omega,
        drop_eq_getElem_cons hlt, hget,
        show names.length - 1 - left + 1 = names.length - left by omega]
    have hmem : (t.node m).name.bytes ≠ [] := hne _ (hget ▸ getElem_mem hlt)
    rw [hdrop, flatMap_cons] at htext
    obtain ⟨hfull, hfits⟩ := putBytes_spec size (0x2F :: (t.node m).name.bytes) b s
    have hstep := putNames_succ size hm hmem b s
    have hclear : ∀ k, size ≤ k → clearBuffer b size k = b k := fun k hk =>
      if_neg (not_lt.mpr hk)
    by_cases hroom : s + (0x2F :: (t.node m).name.bytes).length < size
    · obtain ⟨b1, hput, hholds, hsame⟩ := hfits hroom
      obtain ⟨hfull', hfits'⟩ := ih (by omega) b1 _ hroom _ rfl
      rw [hstep, hput]
      rw [htext, length_append, ← add_assoc]
      refine ⟨fun hle => ?_, fun hlt' => ?_⟩
      · obtain ⟨b', s', heq, hb'⟩ := hfull' hle
        exact ⟨b', s', heq, fun k hk => (hb' k hk).trans (hsame k (by omega))⟩
      · obtain ⟨b', heq, hh, hb'⟩ := hfits' hlt'
        refine ⟨b', heq, ?_, fun k hk => (hb' k (by omega)).trans (hsame k (by omega))⟩
        exact (hholds.congr fun k hk hk' => hb' k (.inl hk')).append hh
    · rw [hstep, hfull (cons_ne_nil _ _) (by omega)]
      rw [htext, length_append]
      exact ⟨fun _ => ⟨_, _, rfl, hclear⟩, fun hlt' => absurd hlt' (by omega)⟩

theorem pathText_length_pos (names : List (List Nat)) : 0 < (pathText names).length := by
  rw [pathText]
  split
  · simp
  · next hne =>
    obtain ⟨x, l, rfl⟩ := exists_cons_of_ne_nil hne
    simp

theorem Lineage.solid (h : Lineage t top n names) : ∀ x ∈ names, ∀ c ∈ x, c ≠ 0 := by
  induction h with
  | top => simp
  | @child owner n names _ _ ih =>
    intro x hx
    rcases mem_append.mp hx with hx | hx
    · exact ih x hx
    · rw [mem_singleton.mp hx]
      exact (t.node n).name.solid

theorem pathText_solid (h : ∀ x ∈ names, ∀ c ∈ x, c ≠ 0) : ∀ c ∈ pathText names, c ≠ 0 := by
  intro c hc
  rw [pathText] at hc
  split at hc
  · rw [mem_singleton.mp hc]
    decide
  · obtain ⟨x, hx, hc⟩ := mem_flatMap.mp hc
    rcases mem_cons.mp hc with rfl | hc
    · decide
    · exact h x hx c hc

theorem stringAt_of_holds {l : List Nat} (h : HoldsAt b 0 l) (hs : ∀ c ∈ l, c ≠ 0) :
    StringAt (update b l.length 0) 0 l := by
  refine ⟨fun i hi => ?_, hs, by simp⟩
  rw [update_of_ne (by omega)]
  exact h i hi

/-- The path of a node below the root, or an overflow, and nothing beyond the
size in both cases. -/
theorem vfsRealpath_spec (h : Lineage t top n names) (htop : names = [] → top = t.rootNode)
    (hne : ∀ x ∈ names, x ≠ []) (hfuel : names.length < fuel) (b : Memory) (size : Nat) :
    ∃ r b', vfsRealpath t (some n) b size fuel = some (r, b') ∧ (∀ k, size ≤ k → b' k = b k) ∧
      ((pathText names).length < size → r = none ∧ StringAt b' 0 (pathText names)) ∧
      (size ≤ (pathText names).length → r = some .overflow) := by
  have hpos := pathText_length_pos names
  by_cases hsize : size < 2
  · refine ⟨some .overflow, _, by rw [vfsRealpath, if_pos hsize], fun k hk => ?_, fun _ => ?_,
      fun _ => rfl⟩
    · split
      · exact update_of_ne (by omega) _ _
      · rfl
    · omega
  have hroot : ¬(names.length = 0 ∧ n ≠ t.rootNode) := by
    rintro ⟨hlen, hn⟩
    have hnil := eq_nil_of_length_eq_zero hlen
    exact hn ((h.eq_top hnil).trans (htop hnil))
  rw [vfsRealpath, if_neg hsize]
  simp only [h.depth fuel hfuel, bind_some, if_neg hroot]
  by_cases hnil : names = []
  · subst hnil
    refine ⟨none, update (update b 0 0x2F) 1 0, rfl, fun k hk => ?_, fun _ => ⟨rfl, ?_⟩,
      fun hle => ?_⟩
    · rw [update_of_ne (by omega), update_of_ne (by omega)]
    · refine stringAt_of_holds (l := [0x2F]) (fun i hi => ?_) (by simp)
      obtain rfl : i = 0 := by simpa using hi
      rfl
    · exact absurd hle (by simp only [pathText]; simp; omega)
  · have hlen : names.length ≠ 0 := fun h0 => hnil (eq_nil_of_length_eq_zero h0)
    simp only [if_neg hlen]
    have htext : pathText names = (names.drop (names.length - names.length)).flatMap (0x2F :: ·) := by
      simp [pathText, if_neg hnil]
    obtain ⟨hfull, hfits⟩ := putNames_spec size h hne names.length le_rfl b 0
      (by omega) (pathText names) htext
    rw [zero_add] at hfull hfits
    by_cases hroom : (pathText names).length < size
    · obtain ⟨b', hput, hholds, hsame⟩ := hfits hroom
      rw [hput]
      refine ⟨none, _, rfl, fun k hk => ?_, fun _ => ⟨rfl, stringAt_of_holds hholds ?_⟩,
        fun hle => absurd hroom (by omega)⟩
      · rw [update_of_ne (by omega)]
        exact hsame k (by omega)
      · exact pathText_solid h.solid
    · obtain ⟨b', s', hput, hsame⟩ := hfull (by omega)
      rw [hput]
      exact ⟨_, b', rfl, hsame, fun hlt => absurd hlt hroom, fun _ => rfl⟩

/-! ## Components -/

/-- What a step leaves alone: the memory beyond `components` and the buffers. -/
structure Inside (v v' : Vname) : Prop where
  components : ∀ i, vfsPathCount ≤ i → v'.components i = v.components i
  wd : ∀ k, vfsPathBuffer ≤ k → v'.wd k = v.wd k
  b : ∀ k, vfsPathBuffer ≤ k → v'.b k = v.b k

theorem Inside.refl (v : Vname) : Inside v v := ⟨fun _ _ => rfl, fun _ _ => rfl, fun _ _ => rfl⟩

theorem Inside.trans {v v' v'' : Vname} (h : Inside v v') (h' : Inside v' v'') : Inside v v'' :=
  ⟨fun i hi => (h'.components i hi).trans (h.components i hi),
    fun k hk => (h'.wd k hk).trans (h.wd k hk), fun k hk => (h'.b k hk).trans (h.b k hk)⟩

/-- Where the strings of a buffer end that components point to. -/
def Buffer.limit (wdEnd bEnd : Nat) : Buffer → Nat
  | .wd => wdEnd
  | .b => bEnd

/-- The components are the strings `l`, below the limits, and null pointers
after them. -/
structure Holds (v : Vname) (wdEnd bEnd : Nat) (l : List (List Nat)) : Prop where
  string : ∀ (i : Nat) (h : i < l.length), ∃ p, v.components i = some p ∧
    StringAt (v.memory p.buffer) p.offset l[i] ∧
      p.offset + l[i].length < p.buffer.limit wdEnd bEnd
  null : ∀ i, l.length ≤ i → i < vfsPathCount → v.components i = none

def Components (v : Vname) (l : List (List Nat)) : Prop :=
  (∀ (i : Nat) (h : i < l.length), ∃ p, v.components i = some p ∧
    StringAt (v.memory p.buffer) p.offset l[i]) ∧
  ∀ i, l.length ≤ i → i < vfsPathCount → v.components i = none

variable {v v' : Vname} {wdEnd bEnd wdEnd' bEnd' : Nat} {l : List (List Nat)}

theorem Holds.components (h : Holds v wdEnd bEnd l) : Components v l :=
  ⟨fun i hi => let ⟨p, hp, hs, _⟩ := h.string i hi; ⟨p, hp, hs⟩, h.null⟩

@[simp] theorem setComponent_self (v : Vname) (i : Nat) (p : Option Pointer) :
    (v.setComponent i p).components i = p := update_self ..

theorem setComponent_ne {i j : Nat} (hij : j ≠ i) (v : Vname) (p : Option Pointer) :
    (v.setComponent i p).components j = v.components j := update_of_ne hij ..

@[simp] theorem setComponent_memory (v : Vname) (i : Nat) (p : Option Pointer) :
    (v.setComponent i p).memory = v.memory := by
  funext buffer
  cases buffer <;> rfl

theorem Holds.congr (h : Holds v wdEnd bEnd l) (hc : v'.components = v.components)
    (hwd : ∀ k, k < wdEnd → v'.wd k = v.wd k) (hb : ∀ k, k < bEnd → v'.b k = v.b k)
    (hwe : wdEnd ≤ wdEnd') (hbe : bEnd ≤ bEnd') : Holds v' wdEnd' bEnd' l := by
  refine ⟨fun i hi => ?_, fun i hi hlt => by rw [hc]; exact h.null i hi hlt⟩
  obtain ⟨⟨buffer, offset⟩, hp, hs, hlt⟩ := h.string i hi
  refine ⟨⟨buffer, offset⟩, by rw [hc, hp], ?_⟩
  cases buffer with
  | wd => exact ⟨hs.congr fun k hk => hwd _ (lt_of_le_of_lt (Nat.add_le_add_left hk _) hlt),
      lt_of_lt_of_le hlt hwe⟩
  | b => exact ⟨hs.congr fun k hk => hb _ (lt_of_le_of_lt (Nat.add_le_add_left hk _) hlt),
      lt_of_lt_of_le hlt hbe⟩

variable {s : List Nat}

section

variable (h : Holds v wdEnd bEnd l)
include h

theorem Holds.push {p : Pointer} (hs : StringAt (v.memory p.buffer) p.offset s)
    (hlt : p.offset + s.length < p.buffer.limit wdEnd bEnd) :
    Holds (v.setComponent l.length (some p)) wdEnd bEnd (l ++ [s]) := by
  refine ⟨fun i hi => ?_, fun i hi hlt => ?_⟩
  · rw [length_append, length_singleton] at hi
    by_cases hil : i < l.length
    · obtain ⟨q, hq, hqs⟩ := h.string i hil
      refine ⟨q, ?_, ?_⟩
      · rw [setComponent_ne (by omega), hq]
      · rwa [getElem_append_left hil, setComponent_memory]
    · obtain rfl : i = l.length := by omega
      refine ⟨p, setComponent_self .., ?_⟩
      rw [getElem_concat_length rfl, setComponent_memory]
      exact ⟨hs, hlt⟩
  · rw [length_append, length_singleton] at hi
    rw [setComponent_ne (by omega)]
    exact h.null i (by omega) hlt

theorem Holds.pop : Holds (v.setComponent (l.length - 1) none) wdEnd bEnd l.dropLast := by
  refine ⟨fun i hi => ?_, fun i hi hlt => ?_⟩
  · rw [length_dropLast] at hi
    obtain ⟨q, hq, hqs⟩ := h.string i (by omega)
    refine ⟨q, ?_, ?_⟩
    · rw [setComponent_ne (by omega), hq]
    · rwa [getElem_dropLast, setComponent_memory]
  · rw [length_dropLast] at hi
    by_cases hil : i = l.length - 1
    · rw [hil, setComponent_self]
    · rw [setComponent_ne hil]
      exact h.null i (by omega) hlt

theorem Holds.setType (type : VfsType) : Holds { v with type := type } wdEnd bEnd l :=
  h.congr rfl (fun _ _ => rfl) (fun _ _ => rfl) le_rfl le_rfl

/-- A string that has been closed becomes a component, if it is not empty. -/
theorem Holds.add (buffer : Buffer) {w i : Nat} (hs : StringAt (v.memory buffer) w s)
    (hi : w + s.length = i) (hlt : i < buffer.limit wdEnd bEnd) :
    ∃ v', v.add buffer w i l.length = (v', (keep l s).length) ∧
      Holds v' wdEnd bEnd (keep l s) ∧ v'.memory = v.memory ∧ v'.type = v.type ∧
      ∀ k, l.length < k → v'.components k = v.components k := by
  by_cases hnil : s = []
  · subst hnil
    refine ⟨v, ?_, h, rfl, rfl, fun _ _ => rfl⟩
    rw [Vname.add, if_neg (by simpa using hi)]
    rfl
  have hpos : 0 < s.length := length_pos_iff.mpr hnil
  have hkeep : keep l s = l ++ [s] := if_neg hnil
  refine ⟨v.setComponent l.length (some ⟨buffer, w⟩), ?_, ?_, setComponent_memory .., rfl,
    fun k hk => setComponent_ne (by omega) _ _⟩
  · rw [Vname.add, if_pos (by omega), hkeep, length_append, length_singleton]
  · rw [hkeep]
    exact h.push hs (by simp only; omega)

end

theorem HoldsAt.snoc {s c : Nat} {l : List Nat} (h : HoldsAt b s l) (hc : b (s + l.length) = c) :
    HoldsAt b s (l ++ [c]) :=
  h.append fun i hi => by
    obtain rfl : i = 0 := by simpa using hi
    simpa using hc

theorem Holds.closeWd {p : List Nat} (hsolid : ∀ c ∈ p, c ≠ 0) {w : Nat}
    (hw : w + (lastPiece 0x2F p).length = p.length) (hcur : HoldsAt v.wd w (lastPiece 0x2F p))
    (h : Holds v w bEnd l) :
    ∃ v', { v with wd := update v.wd p.length 0 }.add .wd w p.length l.length =
        (v', (keep l (lastPiece 0x2F p)).length) ∧
      Holds v' (p.length + 1) bEnd (keep l (lastPiece 0x2F p)) ∧ v'.b = v.b ∧
      (∀ k, k ≠ p.length → v'.wd k = v.wd k) ∧
      ∀ k, l.length < k → v'.components k = v.components k := by
  have hstring : StringAt (update v.wd p.length 0) w (lastPiece 0x2F p) := by
    refine ⟨fun i hi => ?_, fun c hc => hsolid c (mem_of_mem_lastPiece hc), ?_⟩
    · rw [update_of_ne (by omega)]
      exact hcur i hi
    · rw [hw, update_self]
  have hsame : ∀ k, k < w → update v.wd p.length 0 k = v.wd k := fun k hk =>
    update_of_ne (by omega) _ _
  have hholds : Holds { v with wd := update v.wd p.length 0 } (p.length + 1) bEnd l :=
    h.congr rfl hsame (fun _ _ => rfl) (by omega) le_rfl
  obtain ⟨v', hadd, hh, hmem, -, hcomp⟩ := hholds.add .wd hstring hw (Nat.lt_succ_self _)
  refine ⟨v', hadd, hh, congrFun hmem .b, fun k hk => ?_, hcomp⟩
  exact (congrFun (congrFun hmem .wd) k).trans (update_of_ne hk _ _)

/-- The loop over the path of the working directory, from the middle of it. -/
theorem wdLoop_spec {text : List Nat} (hsolid : ∀ c ∈ text, c ≠ 0)
    (hfits : text.length < vfsPathBuffer) : ∀ (rest p : List Nat) (v : Vname) (left w : Nat),
    p ++ rest = text → rest.length < left → w + (lastPiece 0x2F p).length = p.length →
    HoldsAt v.wd w (lastPiece 0x2F p) → HoldsAt v.wd p.length rest → v.wd text.length = 0 →
    Holds v w bEnd (closedFold keep 0x2F [] p) →
    ∃ r v' count, wdLoop left v p.length w (closedFold keep 0x2F [] p).length = some (r, v', count) ∧
      Inside v v' ∧
      ((closedFold keep 0x2F [] text).length < 28 → r = none ∧ v'.b = v.b ∧
        count = ((text.splitOn 0x2F).foldl keep []).length ∧
        Holds v' (text.length + 1) bEnd ((text.splitOn 0x2F).foldl keep [])) ∧
      (28 ≤ (closedFold keep 0x2F [] text).length → r = some .path) := by
  intro rest
  induction rest with
  | nil =>
    intro p v left w htext hleft hw hcur _ hend hh
    rw [append_nil] at htext
    subst htext
    obtain ⟨left, rfl⟩ : ∃ k, left = k + 1 := ⟨left - 1, by omega⟩
    by_cases hcount : (closedFold keep 0x2F [] p).length + 4 ≥ vfsPathCount
    · have heq : wdLoop (left + 1) v p.length w (closedFold keep 0x2F [] p).length =
          some (some .path, v, (closedFold keep 0x2F [] p).length) := by
        simp only [wdLoop, hend, or_true, if_true, if_pos hcount]
      simp only [vfsPathCount] at hcount
      exact ⟨_, _, _, heq, .refl v, fun hlt => by omega, fun _ => rfl⟩
    obtain ⟨v', hadd, hh', hb, hwd, hcomp⟩ := hh.closeWd hsolid hw hcur
    have heq : wdLoop (left + 1) v p.length w (closedFold keep 0x2F [] p).length =
        some (none, v', (keep (closedFold keep 0x2F [] p) (lastPiece 0x2F p)).length) := by
      simp only [wdLoop, hend, or_true, if_true, if_neg hcount, hadd]
    simp only [vfsPathCount] at hcount
    refine ⟨_, _, _, heq, ⟨fun i hi => hcomp i ?_, fun k hk => hwd k ?_, fun k _ => by rw [hb]⟩,
      fun _ => ⟨rfl, hb, by rw [foldl_splitOn], by rw [foldl_splitOn]; exact hh'⟩, fun hge => ?_⟩
    · simp only [vfsPathCount] at hi
      omega
    · omega
    · omega
  | cons c rest ih =>
    intro p v left w htext hleft hw hcur hrest hend hh
    have hlen : p.length + (rest.length + 1) = text.length := by
      simp [← htext]
    obtain ⟨left, rfl⟩ : ∃ k, left = k + 1 := ⟨left - 1, by omega⟩
    rw [length_cons] at hleft
    have hc : v.wd p.length = c := hrest 0 (by simp)
    have hc0 : c ≠ 0 := hsolid c (by rw [← htext]; simp)
    have hnext : ∀ i (hi : i < rest.length), v.wd (p.length + 1 + i) = rest[i] := by
      intro i hi
      rw [add_assoc, add_comm 1]
      exact hrest (i + 1) (by simpa using hi)
    by_cases hsep : c = 0x2F
    · subst hsep
      by_cases hcount : (closedFold keep 0x2F [] p).length + 4 ≥ vfsPathCount
      · have heq : wdLoop (left + 1) v p.length w (closedFold keep 0x2F [] p).length =
            some (some .path, v, (closedFold keep 0x2F [] p).length) := by
          simp only [wdLoop, hc, true_or, if_true, if_pos hcount]
        have hle := closedFold_length_le length_le_keep 0x2F [] p (0x2F :: rest)
        rw [htext] at hle
        simp only [vfsPathCount] at hcount
        exact ⟨_, _, _, heq, .refl v, fun hlt => by omega, fun _ => rfl⟩
      · have hsolid' : ∀ c ∈ p, c ≠ 0 := fun c hc => hsolid c (by rw [← htext]; simp [hc])
        obtain ⟨v', hadd, hh', hb, hwd, hcomp⟩ := hh.closeWd hsolid' hw hcur
        have hlen' : (p ++ [0x2F]).length = p.length + 1 := by simp
        obtain ⟨r, v'', count, heq, hin, hok, herr⟩ := ih (p ++ [0x2F]) v' left (p.length + 1)
          (by rw [← htext]; simp) (by omega) (by simp) (by simp [HoldsAt])
          (by intro i hi; rw [hlen', hwd _ (by omega)]; exact hnext i hi)
          (by rw [hwd _ (by omega)]; exact hend)
          (by rw [closedFold_snoc_self]; exact hh')
        rw [hlen', closedFold_snoc_self] at heq
        refine ⟨r, v'', count, ?_, .trans ⟨fun i hi => hcomp i ?_, fun k hk => hwd k ?_, fun k _ => by rw [hb]⟩
          hin, fun hlt => ?_, herr⟩
        · simp only [wdLoop, hc, true_or, if_true, if_neg hcount, hadd]
          rw [if_neg (by decide), heq]
        · omega
        · omega
        · obtain ⟨hr, hb', hcnt, hfin⟩ := hok hlt
          exact ⟨hr, hb'.trans hb, hcnt, hfin⟩
    · have hlen' : (p ++ [c]).length = p.length + 1 := by simp
      obtain ⟨r, v', count, heq, hin, hok, herr⟩ := ih (p ++ [c]) v left w
        (by rw [← htext]; simp) (by omega)
        (by rw [lastPiece_snoc_of_ne hsep, length_append, hlen']; simp; omega)
        (by rw [lastPiece_snoc_of_ne hsep]; exact hcur.snoc (by rw [hw]; exact hc))
        (by intro i hi; rw [hlen']; exact hnext i hi) hend
        (by rw [closedFold_snoc_of_ne hsep]; exact hh)
      rw [hlen', closedFold_snoc_of_ne hsep] at heq
      refine ⟨r, v', count, ?_, hin, hok, herr⟩
      have hne : ¬(c = 0x2F ∨ c = 0) := by simp [hsep, hc0]
      simp only [wdLoop, hc, if_neg hne, heq]

/-! ## The name -/

section

variable {p : Pointer} (h : StringAt (v.memory p.buffer) p.offset s)
include h

theorem char_of_string (k : Nat) (hk : k ≤ s.length) : v.char p k = s.getD k 0 := by
  rw [Vname.char, getD_eq_getElem?_getD]
  by_cases hlt : k < s.length
  · simp [h.bytes k hlt, getElem?_eq_getElem hlt]
  · obtain rfl : k = s.length := by omega
    rw [h.ends, getElem?_eq_none le_rfl, getD_none]

theorem char_dot_iff : (v.char p 0 = 0x2E ∧ v.char p 1 = 0) ↔ s = [0x2E] := by
  rw [char_of_string h 0 (Nat.zero_le _)]
  match s, h with
  | [], _ => simp
  | [c], h => simp [char_of_string h 1 le_rfl]
  | c :: d :: s, h =>
    rw [char_of_string h 1 (by simp)]
    simpa using fun _ => h.solid d (by simp)

theorem char_dots_iff :
    (v.char p 0 = 0x2E ∧ v.char p 1 = 0x2E ∧ v.char p 2 = 0) ↔ s = [0x2E, 0x2E] := by
  rw [char_of_string h 0 (Nat.zero_le _)]
  match s, h with
  | [], _ => simp
  | [c], h => simp [char_of_string h 1 le_rfl]
  | [c, d], h =>
    rw [char_of_string h 1 (by simp), char_of_string h 2 le_rfl]
    simp
  | c :: d :: e :: s, h =>
    rw [char_of_string h 1 (by simp), char_of_string h 2 (by simp)]
    simpa using fun _ _ => h.solid e (by simp)

end

/-- What the `while` block leaves: the components, and the type of a name that
ends here with the string `s`. -/
structure Checked (v v' : Vname) (wdEnd bEnd : Nat) (l : List (List Nat)) (s : List Nat) : Prop where
  holds : Holds v' wdEnd bEnd l
  memory : v'.memory = v.memory
  above : ∀ k, vfsPathCount ≤ k → v'.components k = v.components k
  directory : s = [0x2E] ∨ s = [0x2E, 0x2E] → v'.type = .directory
  unknown : Ordinary 0x2E s → v'.type = .unknown

theorem checkLast_spec (h : Holds v wdEnd bEnd (keep l s)) (hl : ∀ x ∈ l, Ordinary 0x2E x)
    (hlen : (keep l s).length < vfsPathCount) :
    ∃ v', checkLast v (keep l s).length = some (v', (enter 0x2E l s).length) ∧
      Checked v v' wdEnd bEnd (enter 0x2E l s) s := by
  by_cases hempty : keep l s = []
  · -- nothing has been collected
    have hs : s = [] := by
      by_contra hne
      simp [keep, hne] at hempty
    subst hs
    have hnil : l = [] := hempty
    subst hnil
    exact ⟨v, rfl, h, rfl, fun _ _ => rfl, by simp, fun ho => absurd rfl ho.1⟩
  have hpos : 0 < (keep l s).length := length_pos_iff.mpr hempty
  obtain ⟨p, hp, hstr, -⟩ := h.string ((keep l s).length - 1) (by omega)
  have hcheck : checkLast v (keep l s).length = if v.char p 0 = 0x2E ∧ v.char p 1 = 0 then
        some ({ v.setComponent ((keep l s).length - 1) none with type := .directory },
          (keep l s).length - 1)
      else if v.char p 0 = 0x2E ∧ v.char p 1 = 0x2E ∧ v.char p 2 = 0 then
        let v := { v.setComponent ((keep l s).length - 1) none with type := .directory }
        let count := (keep l s).length - 1
        some (if count > 0 then (v.setComponent (count - 1) none, count - 1) else (v, count))
      else some ({ v with type := .unknown }, (keep l s).length) := by
    rw [checkLast, if_neg (by omega), hp, bind_some]
  have habove : ∀ k, vfsPathCount ≤ k → ∀ i, i < vfsPathCount → k ≠ i := by
    omega
  have hisDot := char_dot_iff hstr
  have hisDots := char_dots_iff hstr
  rw [hcheck]
  by_cases hnil : s = []
  · -- the last component is an earlier one
    subst hnil
    have ho : Ordinary 0x2E (keep l [])[(keep l []).length - 1] := hl _ (getElem_mem _)
    rw [if_neg (mt hisDot.mp ho.2.1), if_neg (mt hisDots.mp ho.2.2)]
    refine ⟨{ v with type := .unknown }, by rfl, ?_, rfl, fun _ _ => rfl, by simp,
      fun h' => absurd rfl h'.1⟩
    exact h.setType .unknown
  have hkeep : keep l s = l ++ [s] := if_neg hnil
  have hlast : (keep l s)[(keep l s).length - 1] = s := by
    simp only [hkeep, length_append, length_singleton, Nat.add_sub_cancel, getElem_concat_length]
  have hpop := h.pop
  have hdrop : (keep l s).dropLast = l := by rw [hkeep, dropLast_concat]
  have hlength : (keep l s).length - 1 = l.length := by rw [hkeep]; simp
  rw [hdrop] at hpop
  rw [hlast] at hisDot hisDots
  rw [hlength] at hpop ⊢
  by_cases hdot : s = [0x2E]
  · subst hdot
    rw [if_pos (hisDot.mpr rfl), enter_dot]
    refine ⟨_, rfl, hpop.setType .directory, setComponent_memory v l.length none, fun k hk => ?_,
      fun _ => rfl, fun h' => absurd rfl h'.2.1⟩
    exact setComponent_ne (habove k hk _ (by omega)) _ _
  rw [if_neg (mt hisDot.mp hdot)]
  by_cases hdots : s = [0x2E, 0x2E]
  · subst hdots
    rw [if_pos (hisDots.mpr rfl), enter_dots, length_dropLast]
    by_cases hl0 : l.length > 0
    · have hpop2 := (hpop.setType .directory).pop
      refine ⟨_, by simp only [if_pos hl0], hpop2, ?_, fun k hk => ?_, fun _ => rfl,
        fun h' => absurd rfl h'.2.2⟩
      · rfl
      · rw [setComponent_ne (habove k hk _ (by omega))]
        exact setComponent_ne (habove k hk _ (by omega)) _ _
    · obtain rfl : l = [] := eq_nil_of_length_eq_zero (by omega)
      refine ⟨_, by rfl, hpop.setType .directory,
        setComponent_memory v 0 none, fun k hk => ?_, fun _ => rfl, fun h' => absurd rfl h'.2.2⟩
      exact setComponent_ne (habove k hk _ (by omega)) _ _
  · have ho : Ordinary 0x2E s := ⟨hnil, hdot, hdots⟩
    rw [if_neg (mt hisDots.mp hdots), enter_ordinary ho]
    refine ⟨{ v with type := .unknown }, by rw [hkeep], ?_, rfl, fun _ _ => rfl, fun h' => ?_,
      fun _ => rfl⟩
    · rw [← hkeep]
      exact h.setType .unknown
    · exact absurd h' (by simp [hdot, hdots])

/-- The limits: no more than 1007 characters, and before each slash and
before the end of the name less than 28 components. -/
def Room (start : List (List Nat)) (name : List Nat) : Prop :=
  name.length ≤ 1007 ∧ ∀ p q, name = p ++ q → q = [] ∨ q.head? = some 0x2F →
    (closed 0x2F 0x2E start p).length < 28

/-- The name ends with a slash, or its last component is `.` or `..`. -/
def NamesDirectory (name : List Nat) : Prop :=
  lastPiece 0x2F name = [] ∨ lastPiece 0x2F name = [0x2E] ∨ lastPiece 0x2F name = [0x2E, 0x2E]

/-- What the loop over the name keeps: the components of what is closed, and
the piece after it, from `w` on. -/
structure Reading (v : Vname) (wdEnd : Nat) (start : List (List Nat)) (p : List Nat) (w : Nat) :
    Prop where
  begins : w + (lastPiece 0x2F p).length = p.length
  piece : HoldsAt v.b w (lastPiece 0x2F p)
  holds : Holds v wdEnd w (closed 0x2F 0x2E start p)

variable {start : List (List Nat)} {p : List Nat} {w c : Nat}

theorem nameChar_inner (h : Reading v wdEnd start p w) (hstart : ∀ x ∈ start, Ordinary 0x2E x ∧ 0x2F ∉ x)
    (hc : c ≠ 0x2F) (hc0 : c ≠ 0) (hroom : p.length ≤ 1007)
    (hlen : (closed 0x2F 0x2E start p).length < vfsPathCount) :
    ∃ v', (∃ v1, nameChar v c p.length w (closed 0x2F 0x2E start p).length =
        (none, v1, w, (closed 0x2F 0x2E start p).length) ∧
      checkLast v1 (closed 0x2F 0x2E start p).length =
        some (v', (closed 0x2F 0x2E start p).length)) ∧
      Reading v' wdEnd start (p ++ [c]) w ∧ Inside v v' := by
  have hclosed : closed 0x2F 0x2E start (p ++ [c]) = closed 0x2F 0x2E start p :=
    closedFold_snoc_of_ne hc
  have hholds : Holds { v with b := update v.b p.length c } wdEnd w
      (closed 0x2F 0x2E start p) :=
    h.holds.congr rfl (fun _ _ => rfl)
      (fun k hk => update_of_ne (by have := h.begins; omega) _ _)
      le_rfl le_rfl
  obtain ⟨v', hcheck, hchecked⟩ := checkLast_spec (s := []) hholds
    (fun x hx => (ordinary_of_mem_closed hstart x hx).1) hlen
  refine ⟨v', ⟨_, ?_, hcheck⟩, ⟨?_, ?_, ?_⟩, ⟨hchecked.above, ?_, ?_⟩⟩
  · have hlimit : ¬(p.length + 16 ≥ vfsPathBuffer) := by simp only [vfsPathBuffer]; omega
    have hnot : ¬(c = 0x2F ∨ c = 0) := by simp [hc, hc0]
    simp only [nameChar, if_neg hlimit, if_neg hnot]
  · rw [lastPiece_snoc_of_ne hc, length_append, length_append, ← add_assoc, h.begins]
  · rw [lastPiece_snoc_of_ne hc, show v'.b = _ from congrFun hchecked.memory .b]
    refine HoldsAt.snoc (h.piece.congr fun k _ hk => ?_) ?_
    · exact update_of_ne (by have := h.begins; omega) _ _
    · rw [h.begins]
      exact update_self ..
  · rw [hclosed]
    exact hchecked.holds
  · intro k _
    exact congrFun (congrFun hchecked.memory .wd) k
  intro k hk
  rw [show v'.b = _ from congrFun hchecked.memory .b]
  refine update_of_ne ?_ _ _
  simp only [vfsPathBuffer] at hk
  omega

theorem nameChar_close (h : Reading v wdEnd start p w) (hsolid : ∀ c ∈ p, c ≠ 0)
    (hstart : ∀ x ∈ start, Ordinary 0x2E x ∧ 0x2F ∉ x) (hc : c = 0x2F ∨ c = 0)
    (hroom : p.length ≤ 1007) (hlen : (closed 0x2F 0x2E start p).length < 28) :
    ∃ v1 v' count, nameChar v c p.length w (closed 0x2F 0x2E start p).length =
        (none, v1, p.length + 1, count) ∧
      checkLast v1 count =
        some (v', (enter 0x2E (closed 0x2F 0x2E start p) (lastPiece 0x2F p)).length) ∧
      Inside v v' ∧ Holds v' wdEnd (p.length + 1)
        (enter 0x2E (closed 0x2F 0x2E start p) (lastPiece 0x2F p)) ∧
      (lastPiece 0x2F p = [0x2E] ∨ lastPiece 0x2F p = [0x2E, 0x2E] → v'.type = .directory) ∧
      (Ordinary 0x2E (lastPiece 0x2F p) → v'.type = .unknown) := by
  have hbegins := h.begins
  have hb : ∀ k, k ≠ p.length →
      update (update v.b p.length c) p.length 0 k = v.b k := fun k hk => by
    rw [update_of_ne hk, update_of_ne hk]
  have hstring : StringAt (update (update v.b p.length c) p.length 0) w
      (lastPiece 0x2F p) := by
    refine ⟨fun i hi => ?_, fun a ha => hsolid a (mem_of_mem_lastPiece ha), ?_⟩
    · rw [hb _ (by omega)]
      exact h.piece i hi
    · rw [hbegins, update_self]
  have hholds : Holds { v with b := update (update v.b p.length c) p.length 0 }
      wdEnd (p.length + 1) (closed 0x2F 0x2E start p) :=
    h.holds.congr rfl (fun _ _ => rfl) (fun k hk => hb k (by omega)) le_rfl (by omega)
  obtain ⟨v1, hadd, hh1, hmem1, -, hcomp1⟩ := hholds.add .b hstring hbegins (Nat.lt_succ_self _)
  have hkeep : (keep (closed 0x2F 0x2E start p) (lastPiece 0x2F p)).length < vfsPathCount := by
    simp only [keep, vfsPathCount]
    split
    · omega
    · rw [length_append, length_singleton]
      omega
  obtain ⟨v', hcheck, hchecked⟩ := checkLast_spec hh1
    (fun x hx => (ordinary_of_mem_closed hstart x hx).1) hkeep
  refine ⟨v1, v', _, ?_, hcheck, ⟨fun i hi => ?_, fun k _ => ?_, fun k hk => ?_⟩, hchecked.holds,
    hchecked.directory, hchecked.unknown⟩
  · have hlimit : ¬(p.length + 16 ≥ vfsPathBuffer) := by simp only [vfsPathBuffer]; omega
    have hcount : ¬((closed 0x2F 0x2E start p).length + 4 ≥ vfsPathCount) := by
      simp only [vfsPathCount]; omega
    simp only [nameChar, if_neg hlimit, if_pos hc, if_neg hcount, hadd]
  · refine (hchecked.above i hi).trans (hcomp1 i ?_)
    simp only [vfsPathCount] at hi
    omega
  · exact (congrFun (congrFun hchecked.memory .wd) k).trans (congrFun (congrFun hmem1 .wd) k)
  · refine ((congrFun (congrFun hchecked.memory .b) k).trans (congrFun (congrFun hmem1 .b) k)).trans
      (hb k ?_)
    simp only [vfsPathBuffer] at hk
    omega

theorem nameChar_full (count : Nat) (h : 1007 < p.length ∨ (c = 0x2F ∨ c = 0) ∧ 28 ≤ count) :
    ∃ v' w' count', nameChar v c p.length w count = (some .path, v', w', count') ∧ Inside v v' := by
  by_cases hlimit : p.length + 16 ≥ vfsPathBuffer
  · exact ⟨v, w, count, by simp only [nameChar, if_pos hlimit], .refl v⟩
  have hlen : p.length ≤ 1007 := by
    simp only [vfsPathBuffer] at hlimit
    omega
  obtain ⟨hc, hcount⟩ := h.resolve_left (by omega)
  have hfull : count + 4 ≥ vfsPathCount := by simp only [vfsPathCount]; omega
  refine ⟨{ v with b := update v.b p.length c }, w, count, ?_, ?_⟩
  · simp only [nameChar, if_neg hlimit, if_pos hc, if_pos hfull]
  · refine ⟨fun _ _ => rfl, fun _ _ => rfl, fun k hk => update_of_ne ?_ _ _⟩
    omega

/-- The slashes so far came with less than 28 components. -/
def Passed (start : List (List Nat)) (p : List Nat) : Prop :=
  ∀ q s, p = q ++ s → s.head? = some 0x2F → (closed 0x2F 0x2E start q).length < 28

theorem Passed.snoc (h : Passed start p)
    (hc : c = 0x2F → (closed 0x2F 0x2E start p).length < 28) : Passed start (p ++ [c]) := by
  intro q s hqs hs
  cases s using reverseRecOn with
  | nil => cases hs
  | append_singleton s' a =>
    rw [← append_assoc] at hqs
    obtain ⟨rfl, hca⟩ := append_inj' hqs rfl
    cases s' with
    | nil =>
      rw [append_nil] at hc
      exact hc ((cons.inj hca).1.trans (some.inj hs))
    | cons b s' => exact h q (b :: s') rfl hs

structure NameDone (v v' : Vname) (start : List (List Nat)) (name : List Nat)
    (r : Option PathCode) : Prop where
  inside : Inside v v'
  ok : Room start name → r = none ∧ Components v' (resolve 0x2F 0x2E start name) ∧
    (NamesDirectory name → v'.type = .directory) ∧ (¬NamesDirectory name → v'.type = .unknown)
  full : ¬Room start name → r = some .path

theorem nameLoop_spec (hsolid : ∀ c ∈ name, c ≠ 0) (hne : name ≠ [])
    (hstart : ∀ x ∈ start, Ordinary 0x2E x ∧ 0x2F ∉ x) :
    ∀ (rest p : List Nat) (v : Vname) (w : Nat),
    p ++ rest = name → Reading v wdEnd start p w → (closed 0x2F 0x2E start p).length ≤ 28 →
    Passed start p →
    ∃ r v', nameLoop name rest v p.length w (closed 0x2F 0x2E start p).length = some (r, v') ∧
      NameDone v v' start name r := by
  intro rest
  induction rest with
  | nil =>
    intro p v w hp h _ hpassed
    rw [append_nil] at hp
    subst hp
    by_cases hroom : p.length ≤ 1007 ∧ (closed 0x2F 0x2E start p).length < 28
    · obtain ⟨v1, v', count, hchar, hcheck, hin, hholds, hdir, hunk⟩ :=
        nameChar_close h hsolid hstart (.inr rfl) hroom.1 hroom.2
      have hlast : (p.length > 0 ∧ p.getD (p.length - 1) 0 = 0x2F) ↔ lastPiece 0x2F p = [] := by
        rw [lastPiece_eq_nil_iff, getLast?_eq_getElem?, getD_eq_getElem?_getD]
        simp [hne, length_pos_iff]
      refine ⟨none, if p.length > 0 ∧ p.getD (p.length - 1) 0 = 0x2F then
        { v' with type := .directory } else v', ?_, ?_, fun _ => ⟨rfl, ?_, fun hd => ?_, fun hd => ?_⟩,
        fun hno => absurd ⟨hroom.1, fun q s hqs hs => ?_⟩ hno⟩
      · simp only [nameLoop, hchar, hcheck, map_some]
      · split
        · exact hin.trans ⟨fun _ _ => rfl, fun _ _ => rfl, fun _ _ => rfl⟩
        · exact hin
      · rw [resolve_eq]
        split
        · exact (hholds.setType .directory).components
        · exact hholds.components
      · split
        · rfl
        · next hnot => exact hdir (hd.resolve_left (mt hlast.mpr hnot))
      · rw [if_neg (mt hlast.mp fun h' => hd (.inl h'))]
        exact hunk ⟨fun h' => hd (.inl h'), fun h' => hd (.inr (.inl h')),
          fun h' => hd (.inr (.inr h'))⟩
      · rcases hs with rfl | hs
        · rw [append_nil] at hqs
          exact hqs ▸ hroom.2
        · exact hpassed q s hqs hs
    · have hfull : 1007 < p.length ∨ ((0 : Nat) = 0x2F ∨ (0 : Nat) = 0) ∧
          28 ≤ (closed 0x2F 0x2E start p).length := by
        by_cases hlen : p.length ≤ 1007
        · omega
        · exact .inl (not_le.mp hlen)
      obtain ⟨v', w', count', hchar, hin⟩ := nameChar_full (v := v) (w := w) _ hfull
      refine ⟨some .path, v', by simp only [nameLoop, hchar], hin, fun hr => ?_, fun _ => rfl⟩
      exact absurd ⟨hr.1, hr.2 p [] (append_nil p).symm (.inl rfl)⟩ hroom
  | cons c rest ih =>
    intro p v w hp h hcount hpassed
    have hlen' : (p ++ [c]).length = p.length + 1 := by simp
    have hc0 : c ≠ 0 := hsolid c (by rw [← hp]; simp)
    have hsolid' : ∀ a ∈ p, a ≠ 0 := fun a ha => hsolid a (by rw [← hp]; simp [ha])
    by_cases hlong : 1007 < p.length
    · obtain ⟨v', w', count', hchar, hin⟩ := nameChar_full (w := w) (c := c)
        (closed 0x2F 0x2E start p).length (.inl hlong)
      refine ⟨some .path, v', by simp only [nameLoop, hchar], hin, fun hr => ?_, fun _ => rfl⟩
      have := hr.1
      rw [← hp, length_append, length_cons] at this
      omega
    by_cases hsep : c = 0x2F
    · by_cases hfull : 28 ≤ (closed 0x2F 0x2E start p).length
      · obtain ⟨v', w', count', hchar, hin⟩ := nameChar_full (w := w) (p := p)
          _ (.inr ⟨.inl hsep, hfull⟩)
        refine ⟨some .path, v', by simp only [nameLoop, hchar], hin, fun hr => ?_, fun _ => rfl⟩
        exact absurd (hr.2 p (c :: rest) hp.symm (.inr (by simp [hsep]))) (by omega)
      obtain ⟨v1, v', count, hchar, hcheck, hin, hholds, -, -⟩ :=
        nameChar_close h hsolid' hstart (.inl hsep) (by omega) (by omega)
      subst hsep
      have hclosed : closed 0x2F 0x2E start (p ++ [0x2F]) =
          enter 0x2E (closed 0x2F 0x2E start p) (lastPiece 0x2F p) := closedFold_snoc_self
      have hle := length_enter_le 0x2E (closed 0x2F 0x2E start p) (lastPiece 0x2F p)
      obtain ⟨r, v'', heq, hdone⟩ := ih (p ++ [0x2F]) v' (p.length + 1) (by rw [← hp]; simp)
        ⟨by simp, by simp [HoldsAt], by rw [hclosed]; exact hholds⟩ (by rw [hclosed]; omega)
        (hpassed.snoc fun _ => by omega)
      rw [hlen', hclosed] at heq
      refine ⟨r, v'', ?_, hin.trans hdone.inside, hdone.ok, hdone.full⟩
      simp only [nameLoop, hchar, hcheck, bind_some, heq]
    · obtain ⟨v', ⟨v1, hchar, hcheck⟩, hread, hin⟩ :=
        nameChar_inner h hstart hsep hc0 (by omega) (by simp only [vfsPathCount]; omega)
      have hclosed : closed 0x2F 0x2E start (p ++ [c]) = closed 0x2F 0x2E start p :=
        closedFold_snoc_of_ne hsep
      obtain ⟨r, v'', heq, hdone⟩ := ih (p ++ [c]) v' w (by rw [← hp]; simp) hread
        (by rw [hclosed]; exact hcount) (hpassed.snoc fun h' => absurd h' hsep)
      rw [hlen', hclosed] at heq
      refine ⟨r, v'', ?_, hin.trans hdone.inside, hdone.ok, hdone.full⟩
      simp only [nameLoop, hchar, hcheck, bind_some, heq]

/-! ## Names and working directories -/

theorem splitOn_pathText {names : List (List Nat)} (h : ∀ x ∈ names, 0x2F ∉ x) :
    (pathText names).splitOn 0x2F = [] :: if names = [] then [[]] else names := by
  rw [pathText]
  split
  · rfl
  · exact splitOn_flatMap names [] (by simp) h

/-- No working directory, or a node: its path has the components `start`. -/
inductive WorkingDirectory (t : VfsTree) : Option Nat → List (List Nat) → Prop where
  | none : WorkingDirectory t none []
  | node {top n : Nat} {names : List (List Nat)} (h : Lineage t top n names)
      (htop : names = [] → top = t.rootNode) (hnames : ∀ x ∈ names, Ordinary 0x2E x ∧ 0x2F ∉ x) :
      WorkingDirectory t (some n) names

/-- What `vfs_realpath` writes for a working directory. -/
def wdText (wdNode : Option Nat) (start : List (List Nat)) : List Nat :=
  if wdNode = none then [] else pathText start

variable {wdNode : Option Nat}

theorem WorkingDirectory.ordinary (h : WorkingDirectory t wdNode start) :
    ∀ x ∈ start, Ordinary 0x2E x ∧ 0x2F ∉ x := by
  cases h with
  | none => simp
  | node _ _ hnames => exact hnames

theorem WorkingDirectory.pieces (h : WorkingDirectory t wdNode start) :
    ((wdText wdNode start).splitOn 0x2F).foldl keep [] = start ∧
      (closedFold keep 0x2F [] (wdText wdNode start)).length = start.length - 1 ∧
      ∀ c ∈ wdText wdNode start, c ≠ 0 := by
  cases h with
  | none => exact ⟨rfl, rfl, by simp [wdText]⟩
  | @node top n _ h htop hnames =>
    have hne : ∀ x ∈ start, x ≠ [] := fun x hx => (hnames x hx).1.1
    have htext : wdText (some n) start = pathText start := if_neg (by simp)
    rw [htext, closedFold, splitOn_pathText fun x hx => (hnames x hx).2]
    refine ⟨?_, ?_, pathText_solid h.solid⟩
    · rw [foldl_cons, keep, if_pos rfl]
      split
      · next hnil => rw [hnil]; rfl
      · rw [foldl_keep hne, nil_append]
    split
    · next hnil => rw [hnil]; rfl
    · next hnil =>
      rw [dropLast_cons_of_ne_nil hnil, foldl_cons, keep, if_pos rfl,
        foldl_keep fun x hx => hne x (mem_of_mem_dropLast hx), nil_append,
        length_dropLast]

/-- What a name becomes, from the components it starts with. -/
structure Normalized (start : List (List Nat)) (name : List Nat) (r : Option PathCode)
    (v' : Vname) : Prop where
  ok : Room start name → r = none ∧ Components v' (resolve 0x2F 0x2E start name) ∧
    (NamesDirectory name → v'.type = .directory) ∧ (¬NamesDirectory name → v'.type = .unknown)
  full : ¬Room start name → r = some .path

theorem not_room_of_lt (h : 28 ≤ start.length) : ¬Room start name := by
  intro hroom
  obtain ⟨p, q, hpq, hp, hq⟩ := exists_first 0x2F name
  have hlt := hroom.2 p q hpq hq
  rw [closed, closedFold_of_notMem hp] at hlt
  omega

/-- The components of the working directory, or what goes wrong with it. -/
theorem wdComponents_eq {name : CString} (hname : name.bytes.head? ≠ some 0x2F)
    {r : Option (Option PathCode × Memory)} : vfsRealpath t wdNode v.wd 1008 fuel = r →
    wdComponents t wdNode name fuel v = match r with
      | none => none
      | some (some e, wd) => some (some e, { v with wd := wd }, 0)
      | some (none, wd) => wdLoop vfsPathBuffer { v with wd := wd } 0 0 0 := by
  rintro rfl
  rw [wdComponents, if_neg hname]
  rfl

theorem wdComponents_spec (h : WorkingDirectory t wdNode start) (hfuel : start.length < fuel)
    {name : CString} (hname : name.bytes.head? ≠ some 0x2F)
    (hv : ∀ i, i < vfsPathCount → v.components i = none) :
    ∃ r v' count, wdComponents t wdNode name fuel v = some (r, v', count) ∧ Inside v v' ∧
      (1008 ≤ (wdText wdNode start).length → r = some .overflow) ∧
      ((wdText wdNode start).length < 1008 →
        (start.length ≤ 28 → r = none ∧ count = start.length ∧ ∃ wdEnd, Holds v' wdEnd 0 start) ∧
        (28 < start.length → r = some .path)) := by
  obtain ⟨hkeep, hclosed, hsolid⟩ := h.pieces
  -- what the loop over the path makes of it
  have hloop : ∀ wd, StringAt wd 0 (wdText wdNode start) → (∀ k, 1008 ≤ k → wd k = v.wd k) →
      (wdText wdNode start).length < 1008 →
      ∃ r v' count, wdLoop vfsPathBuffer { v with wd := wd } 0 0 0 = some (r, v', count) ∧
        Inside v v' ∧
        (start.length ≤ 28 → r = none ∧ count = start.length ∧ ∃ wdEnd, Holds v' wdEnd 0 start) ∧
        (28 < start.length → r = some .path) := by
    intro wd hwd hsame hlt
    have hnull : Holds { v with wd := wd } 0 0 [] :=
      ⟨fun i hi => absurd hi (by simp), fun i _ hi => hv i hi⟩
    have hbuffer : (wdText wdNode start).length < vfsPathBuffer := by
      simp only [vfsPathBuffer]
      omega
    have hend := hwd.ends
    rw [zero_add] at hend
    obtain ⟨r, v', count, heq, hin, hok, herr⟩ := wdLoop_spec hsolid hbuffer (wdText wdNode start) []
      { v with wd := wd } vfsPathBuffer 0 rfl hbuffer (by simp) (by simp [HoldsAt])
      (fun i hi => hwd.bytes i hi) hend (by exact hnull)
    rw [hkeep] at hok
    have hinside : Inside v { v with wd := wd } :=
      ⟨fun _ _ => rfl, fun k hk => hsame k (by simp only [vfsPathBuffer] at hk; omega),
        fun _ _ => rfl⟩
    refine ⟨r, v', count, heq, hinside.trans hin, fun hle => ?_, fun hgt => herr (by omega)⟩
    obtain ⟨hr, -, hcount, hholds⟩ := hok (by omega)
    exact ⟨hr, hcount, _, hholds⟩
  cases h with
  | none =>
    have hwd : StringAt (update v.wd 0 0) 0 (wdText none []) := .nil (by simp)
    obtain ⟨r, v', count, heq, hin, hok⟩ := hloop _ hwd
      (fun k hk => update_of_ne (by omega) _ _) (by simp [wdText])
    refine ⟨r, v', count, ?_, hin, fun hle => absurd hle (by simp [wdText]), fun _ => hok⟩
    rwa [wdComponents_eq hname
      (rfl)]
  | @node top n _ h htop hnames =>
    have htext : wdText (some n) start = pathText start := if_neg (by simp)
    rw [htext] at hloop ⊢
    obtain ⟨r, wd, hreal, hsame, hfits, hfull⟩ :=
      vfsRealpath_spec h htop (fun x hx => (hnames x hx).1.1) hfuel v.wd 1008
    by_cases hlt : (pathText start).length < 1008
    · obtain ⟨rfl, hwd⟩ := hfits hlt
      obtain ⟨r, v', count, heq, hin, hok⟩ := hloop wd hwd hsame hlt
      exact ⟨r, v', count, (wdComponents_eq hname hreal).trans heq, hin, fun hle => absurd hlt (by omega),
        fun _ => hok⟩
    · obtain rfl := hfull (by omega)
      exact ⟨some .overflow, { v with wd := wd }, 0, wdComponents_eq hname hreal,
        ⟨fun _ _ => rfl, fun k hk => hsame k (by simp only [vfsPathBuffer] at hk; omega),
          fun _ _ => rfl⟩, fun _ => rfl, fun h' => absurd h' hlt⟩

theorem buildVnameLocked_eq (t : VfsTree) (wdNode : Option Nat) (name : CString) (fuel : Nat)
    (hv : v' = { v with
      components := fun i => if i < vfsPathCount then none else v.components i
      type := .unknown }) :
    buildVnameLocked t wdNode name fuel v = if name.bytes = [] then some (some .path, v')
      else
        match wdComponents t wdNode name fuel v' with
        | none => none
        | some (some e, v, _) => some (some e, v)
        | some (none, v, count) => nameLoop name.bytes name.bytes v 0 0 count := by
  subst hv
  rfl

/-- `build_vname_locked`, for every name and working directory: it stays inside
its memory, and the components and the type are those of the normalized name,
unless the name is empty, over the limits, or `vfs_realpath` fails. -/
theorem buildVnameLocked_normalizes (t : VfsTree) {wdNode : Option Nat} {start : List (List Nat)}
    (hwd : WorkingDirectory t wdNode start) (name : CString) (fuel : Nat)
    (hfuel : start.length < fuel) (v : Vname) :
    ∃ r v', buildVnameLocked t wdNode name fuel v = some (r, v') ∧ Inside v v' ∧
      (name.bytes = [] → r = some .path) ∧
      (name.bytes.head? = some 0x2F → Normalized [] name.bytes r v') ∧
      (name.bytes ≠ [] → name.bytes.head? ≠ some 0x2F →
        (1008 ≤ (wdText wdNode start).length → r = some .overflow) ∧
        ((wdText wdNode start).length < 1008 → Normalized start name.bytes r v')) := by
  obtain ⟨v0, hv0⟩ : ∃ v0 : Vname, v0 = { v with
      components := fun i => if i < vfsPathCount then none else v.components i
      type := .unknown } := ⟨_, rfl⟩
  have hin0 : Inside v v0 := by
    subst hv0
    exact ⟨fun i hi => if_neg (not_lt.mpr hi), fun _ _ => rfl, fun _ _ => rfl⟩
  have hnull : ∀ i, i < vfsPathCount → v0.components i = none := fun i hi => by
    subst hv0
    exact if_pos hi
  have hbuild := buildVnameLocked_eq t wdNode name fuel hv0
  by_cases hne : name.bytes = []
  · refine ⟨some .path, v0, by rw [hbuild, if_pos hne], hin0, fun _ => rfl, fun h => ?_,
      fun h => absurd hne h⟩
    rw [hne] at h
    cases h
  rw [hbuild, if_neg hne]
  -- the loop over the name, after the components `l`
  have hloop : ∀ v1 wdEnd l, Holds v1 wdEnd 0 l → (∀ x ∈ l, Ordinary 0x2E x ∧ 0x2F ∉ x) →
      l.length ≤ 28 → Inside v v1 →
      ∃ r v', nameLoop name.bytes name.bytes v1 0 0 l.length = some (r, v') ∧ Inside v v' ∧
        Normalized l name.bytes r v' := by
    intro v1 wdEnd l hl hord hlen hin
    have hclosed : closed 0x2F 0x2E l [] = l := closedFold_nil
    have hread : Reading v1 wdEnd l [] 0 := ⟨rfl, by simp [HoldsAt], by rw [hclosed]; exact hl⟩
    obtain ⟨r, v', heq, hdone⟩ := nameLoop_spec name.solid hne hord name.bytes [] v1 0 rfl hread
      (by rw [hclosed]; exact hlen)
      (fun q s hqs hs => by
        obtain ⟨-, rfl⟩ := append_eq_nil_iff.mp hqs.symm
        cases hs)
    rw [hclosed] at heq
    exact ⟨r, v', heq, hin.trans hdone.inside, hdone.ok, hdone.full⟩
  by_cases habs : name.bytes.head? = some 0x2F
  · have hwd0 : wdComponents t wdNode name fuel v0 = some (none, v0, 0) := by
      rw [wdComponents, if_pos habs]
    obtain ⟨r, v', heq, hin, hnorm⟩ := hloop v0 0 []
      ⟨fun i hi => absurd hi (by simp), fun i _ hi => hnull i hi⟩ (by simp) (by simp) hin0
    rw [hwd0]
    exact ⟨r, v', heq, hin, fun h => absurd h hne, fun _ => hnorm, fun _ h => absurd habs h⟩
  · obtain ⟨r, v1, count, heq, hin, hover, hok⟩ := wdComponents_spec hwd hfuel habs hnull
    rw [heq]
    by_cases hlong : 1008 ≤ (wdText wdNode start).length
    · obtain rfl := hover hlong
      exact ⟨some .overflow, v1, rfl, hin0.trans hin, fun h => absurd h hne,
        fun h => absurd h habs, fun _ _ => ⟨fun _ => rfl, fun h => absurd h (by omega)⟩⟩
    obtain ⟨hfew, hmany⟩ := hok (by omega)
    by_cases hcount : start.length ≤ 28
    · obtain ⟨rfl, rfl, wdEnd, hholds⟩ := hfew hcount
      obtain ⟨r, v', heq', hin', hnorm⟩ := hloop v1 wdEnd start hholds hwd.ordinary hcount
        (hin0.trans hin)
      exact ⟨r, v', heq', hin', fun h => absurd h hne, fun h => absurd h habs,
        fun _ _ => ⟨fun h => absurd h hlong, fun _ => hnorm⟩⟩
    · obtain rfl := hmany (by omega)
      exact ⟨some .path, v1, rfl, hin0.trans hin, fun h => absurd h hne, fun h => absurd h habs,
        fun _ _ => ⟨fun h => absurd h hlong,
          fun _ => ⟨fun hr => absurd hr (not_room_of_lt (by omega)), fun _ => rfl⟩⟩⟩

theorem room_of_short (h : start.length + name.length < 28) : Room start name := by
  refine ⟨by omega, fun p q hpq _ => ?_⟩
  have hle := length_closed_le 0x2F 0x2E start p
  have hlen : name.length = p.length + q.length := by rw [hpq, length_append]
  omega

/-- The root, and the directory `a` in it. -/
def smallTree : VfsTree where
  node n := if n = 1 then ⟨⟨[0x61], by decide⟩, some 0⟩ else ⟨⟨[], by decide⟩, none⟩
  rootNode := 0

theorem smallTree_lineage : Lineage smallTree 0 1 ([] ++ [[0x61]]) :=
  .child (.top rfl) rfl

/-- A `vname` before its first use. -/
def noVname : Vname := ⟨fun _ => none, .unknown, fun _ => 0, fun _ => 0⟩

/-- The name `../b/` in the directory `a`. -/
theorem buildVnameLocked_parent : ∃ v', buildVnameLocked smallTree (some 1)
      ⟨[0x2E, 0x2E, 0x2F, 0x62, 0x2F], by decide⟩ 2 noVname = some (none, v') ∧
    Components v' [[0x62]] ∧ v'.type = .directory := by
  obtain ⟨r, v', heq, -, -, -, h⟩ := buildVnameLocked_normalizes smallTree
    (.node smallTree_lineage (by simp) (by decide)) ⟨[0x2E, 0x2E, 0x2F, 0x62, 0x2F], by decide⟩
    2 (by decide) noVname
  obtain ⟨rfl, hcomp, hdir, -⟩ := ((h (by simp) (by decide)).2 (by decide)).ok (room_of_short (by decide))
  exact ⟨v', heq, hcomp, hdir (.inl (by decide))⟩

/-! ## The path of a node as a name -/

def pathString (h : Lineage t top n names) : CString := ⟨pathText names, pathText_solid h.solid⟩

theorem room_pathText {names : List (List Nat)} (h : ∀ x ∈ names, Ordinary 0x2E x ∧ 0x2F ∉ x) :
    Room [] (pathText names) ↔ names.length ≤ 28 ∧ (pathText names).length ≤ 1007 := by
  have hpieces := splitOn_pathText fun x hx => (h x hx).2
  constructor
  · rintro ⟨hlen, hslash⟩
    refine ⟨?_, hlen⟩
    have hlast := hslash (pathText names) [] (append_nil _).symm (.inl rfl)
    rw [closed, closedFold, hpieces] at hlast
    by_cases hnil : names = []
    · simp [hnil]
    · rw [if_neg hnil, dropLast_cons_of_ne_nil hnil, foldl_cons, enter_nil,
        foldl_enter_ordinary fun x hx => (h x (mem_of_mem_dropLast hx)).1, nil_append,
        length_dropLast] at hlast
      omega
  · rintro ⟨hnames, hlen⟩
    refine ⟨hlen, fun p q hpq hq => ?_⟩
    -- the pieces of `p` begin the pieces of the path
    have hprefix : p.splitOn 0x2F <+: (pathText names).splitOn 0x2F := by
      rcases hq with rfl | hq
      · rw [hpq, append_nil]
      obtain ⟨r, rfl⟩ : ∃ r, q = 0x2F :: r := by
        cases q with
        | nil => cases hq
        | cons c r => exact ⟨r, by rw [some.inj hq]⟩
      rw [hpq, splitOn_append_cons_self]
      simp
    rw [hpieces] at hprefix
    obtain ⟨x, rest, hp⟩ := exists_cons_of_ne_nil (splitOn_ne_nil 0x2F p)
    rw [hp, cons_prefix_cons] at hprefix
    obtain ⟨rfl, hrest⟩ := hprefix
    have hle := hrest.length_le
    have hshort : (if names = [] then [[]] else names).length ≤ 28 := by
      split
      · simp
      · exact hnames
    rw [closed, closedFold, hp]
    by_cases hnil : rest = []
    · simp [hnil]
    · have hfold := length_foldl_enter_le 0x2E rest.dropLast []
      rw [length_dropLast, length_nil] at hfold
      rw [dropLast_cons_of_ne_nil hnil, foldl_cons, enter_nil]
      omega

theorem resolve_pathText {names : List (List Nat)} (h : ∀ x ∈ names, Ordinary 0x2E x ∧ 0x2F ∉ x) :
    resolve 0x2F 0x2E [] (pathText names) = names := by
  rw [resolve, splitOn_pathText fun x hx => (h x hx).2, foldl_cons, enter_nil]
  split
  · next hnil => rw [hnil]; rfl
  · rw [foldl_enter_ordinary fun x hx => (h x hx).1, nil_append]

/-- The path that `vfs_realpath` writes for a node of the tree: all of it within
the size, or an overflow, and nothing beyond the size. Within the limits of
`build_vname_locked` it gives back the names of the node, wherever the
working directory is, and beyond them it is an erroneous path. -/
theorem vfsRealpath_normalizes (t : VfsTree) {n : Nat} {names : List (List Nat)}
    (h : Lineage t t.rootNode n names) (hnames : ∀ x ∈ names, Ordinary 0x2E x ∧ 0x2F ∉ x)
    (fuel : Nat) (hfuel : names.length < fuel) :
    (∀ b size, ∃ r b', vfsRealpath t (some n) b size fuel = some (r, b') ∧
      (∀ k, size ≤ k → b' k = b k) ∧
      ((pathText names).length < size ∧ r = none ∧ StringAt b' 0 (pathText names) ∨
        size ≤ (pathText names).length ∧ r = some .overflow)) ∧
    ∀ wdNode v, ∃ r v', buildVnameLocked t wdNode (pathString h) fuel v = some (r, v') ∧
      (names.length ≤ 28 ∧ (pathText names).length ≤ 1007 → r = none ∧ Components v' names) ∧
      (¬(names.length ≤ 28 ∧ (pathText names).length ≤ 1007) → r = some .path) := by
  constructor
  · intro b size
    obtain ⟨r, b', heq, hsame, hfits, hfull⟩ :=
      vfsRealpath_spec h (fun _ => rfl) (fun x hx => (hnames x hx).1.1) hfuel b size
    refine ⟨r, b', heq, hsame, ?_⟩
    by_cases hlt : (pathText names).length < size
    · exact .inl ⟨hlt, hfits hlt⟩
    · exact .inr ⟨not_lt.mp hlt, hfull (not_lt.mp hlt)⟩
  · intro wdNode v
    have habs : (pathString h).bytes.head? = some 0x2F := by
      show (pathText names).head? = some 0x2F
      unfold pathText
      split
      · rfl
      · next hne =>
        obtain ⟨x, l, rfl⟩ := exists_cons_of_ne_nil hne
        rfl
    -- the working directory is not looked at
    have hany : buildVnameLocked t wdNode (pathString h) fuel v =
        buildVnameLocked t none (pathString h) fuel v := by
      simp only [buildVnameLocked, wdComponents, if_pos habs]
    obtain ⟨r, v', heq, -, -, hnorm, -⟩ := buildVnameLocked_normalizes t .none (pathString h) fuel
      (by rw [length_nil]; omega) v
    refine ⟨r, v', hany.trans heq, fun hlimits => ?_, fun hlimits => ?_⟩
    · obtain ⟨hr, hcomp, -⟩ := (hnorm habs).ok ((room_pathText hnames).mpr hlimits)
      refine ⟨hr, ?_⟩
      rw [pathString, resolve_pathText hnames] at hcomp
      exact hcomp
    · exact (hnorm habs).full (mt (room_pathText hnames).mp hlimits)

theorem vfsRealpath_normalizes_small : ∃ v',
    buildVnameLocked smallTree (some 1) (pathString smallTree_lineage) 2 noVname = some (none, v') ∧
      Components v' [[0x61]] := by
  obtain ⟨r, v', heq, hok, -⟩ := (vfsRealpath_normalizes smallTree smallTree_lineage (by decide)
    2 (by decide)).2 (some 1) noVname
  obtain ⟨rfl, hcomp⟩ := hok (by decide)
  exact ⟨v', heq, hcomp⟩

/-- Directories one in the other, each with a name of 200 characters. -/
def longTree : VfsTree where
  node n := ⟨⟨replicate 200 0x61, fun b hb => by rw [eq_of_mem_replicate hb]; decide⟩,
      if n = 0 then none else some (n - 1)⟩
  rootNode := 0

theorem longTree_lineage : ∀ n, Lineage longTree 0 n (replicate n (replicate 200 0x61)) := by
  intro n
  induction n with
  | zero => exact .top rfl
  | succ n ih =>
    rw [replicate_succ']
    exact .child ih rfl

/-- The sixth directory has a path of 1206 characters, which is no path for
`build_vname_locked`. -/
theorem vfsRealpath_tooLong :
    ¬∀ (t : VfsTree) (n : Nat) (names : List (List Nat)) (h : Lineage t t.rootNode n names),
      (∀ x ∈ names, Ordinary 0x2E x ∧ 0x2F ∉ x) → ∀ wdNode v fuel, names.length < fuel →
        ∃ v', buildVnameLocked t wdNode (pathString h) fuel v = some (none, v') ∧
          Components v' names := by
  intro hall
  have hord : ∀ x ∈ replicate 6 (replicate 200 0x61),
      Ordinary 0x2E x ∧ (0x2F : Nat) ∉ x := by
    intro x hx
    rw [eq_of_mem_replicate hx]
    decide
  have hlen : (6 : Nat) < 7 := by decide
  obtain ⟨v', heq, -⟩ := hall longTree 6 _ (longTree_lineage 6) hord none noVname 7
    (by rw [length_replicate]; exact hlen)
  obtain ⟨r, v'', heq', -, hbad⟩ := (vfsRealpath_normalizes longTree (longTree_lineage 6) hord 7
    (by rw [length_replicate]; exact hlen)).2 none noVname
  have hlong : (pathText (replicate 6 (replicate 200 0x61))).length = 1206 := by
    rw [pathText, if_neg (by simp), length_flatMap, map_replicate, length_cons,
      length_replicate, sum_replicate_nat]
  have hr := hbad (by rw [hlong]; omega)
  rw [heq, hr] at heq'
  cases heq'

end Dancy.Vfs
