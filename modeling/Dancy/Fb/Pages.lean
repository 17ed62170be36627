import Mathlib.Data.List.Nodup

/-!
# The page map of the framebuffer

The standard framebuffer is written page by page, and `fb_init` prepares
for each page of 1024 pixels the up to three pieces of rows that it is
copied to. A computation that leaves the range of `int` is `none`.
-/

namespace Dancy.Fb

open List Option

/-! ## fb_init -/

/-- The destinations of one page; `none` is a null pointer. -/
structure FbPage where
  dstA : Nat
  (dstB dstC : Option Nat)
  (sizeA sizeB sizeC : Nat)

inductive FbInit
  | rejected
  | accepted (pages : List FbPage)

def int (n : Nat) : Option Nat := if n ≤ 0x7FFFFFFF then some n else none

def fbPage (width pixelSize stride i : Nat) : Option FbPage :=
  let t0 := 1024 * i
  let t1 := t0 % width
  let t2 := width - t1
  let unit := 1024 * pixelSize
  let rowSize := width * pixelSize
  (int (t0 / width * stride)).bind fun t3 =>
  (int (t3 + t1 * pixelSize)).bind fun a =>
    if t2 < 1024 then
      let sizeB := unit - t2 * pixelSize
      (int (t3 + stride)).bind fun b =>
        if sizeB > rowSize then
          (int (t3 + 2 * stride)).map fun c =>
            ⟨a, some b, some c, t2 * pixelSize, rowSize, sizeB - rowSize⟩
        else some ⟨a, some b, none, t2 * pixelSize, sizeB, 0⟩
    else some ⟨a, none, none, unit, 0, 0⟩

def fbPages (width pixelSize stride : Nat) : Nat → Option (List FbPage)
  | 0 => some []
  | n + 1 => (fbPages width pixelSize stride n).bind fun pages =>
    (fbPage width pixelSize stride n).map fun p => pages ++ [p]

/-- The last page loses `size` bytes from its back. -/
def FbPage.trim (p : FbPage) (size : Nat) : Option FbPage :=
  let rest := size - p.sizeC
  let q := if p.sizeC ≤ size then { p with sizeC := 0, dstC := none }
    else { p with sizeC := p.sizeC - size }
  let rest' := rest - p.sizeB
  let q := if p.sizeB ≤ rest then { q with sizeB := 0, dstB := none }
    else { q with sizeB := p.sizeB - rest }
  if p.sizeA ≤ rest' then none else some { q with sizeA := p.sizeA - rest' }

/-- `(int)kernel->fb_standard_size / 0x1000`, once it is not negative. -/
def pageCount (standardSize : Nat) : Nat := (BitVec.ofNat 32 standardSize).toInt.toNat / 0x1000

/-- `fb_init` from the size of the screen on; `memory` and `entry` are what
`malloc` and `pg_get_entry` answer. -/
def fbInit (width height pixelSize stride standardSize : Nat) (memory : Bool) (entry : Nat → Bool) :
    Option FbInit :=
  if width < 640 ∨ height < 480 then some .rejected
  else if standardSize &&& 0x0FFF ≠ 0 then some .rejected
  else (int (width * height * pixelSize)).bind fun visible =>
    if standardSize < visible then some .rejected
    else if (BitVec.ofNat 32 standardSize).toInt < 0 ∨ !memory then some .rejected
    else if (range (pageCount standardSize)).any fun i => !entry i then some .rejected
    else (fbPages width pixelSize stride (pageCount standardSize)).map fun pages =>
      if pages.any fun p => p.sizeA + p.sizeB + p.sizeC ≠ 1024 * pixelSize then .rejected
      else
        let total := 1024 * pixelSize * pageCount standardSize
        if visible < total then
          match pages.getLast?.bind fun p => p.trim (total - visible) with
          | none => .rejected
          | some p => .accepted (pages.dropLast ++ [p])
        else .accepted pages

/-! ## The bytes of the screen -/

def pieceBytes : Option Nat → Nat → List Nat
  | none, _ => []
  | some dst, size => range' dst size

/-- The bytes of the physical framebuffer that a page is copied to, in order. -/
def FbPage.bytes (p : FbPage) : List Nat :=
  range' p.dstA p.sizeA ++ (pieceBytes p.dstB p.sizeB ++ pieceBytes p.dstC p.sizeC)

/-- The bytes of the visible rows from top to bottom. -/
def visible (width height pixelSize stride : Nat) : List Nat :=
  (range height).flatMap fun row => range' (row * stride) (width * pixelSize)

/-- The pieces of all pages are the bytes of the visible rows, each once, and
each page but the last has its 1024 pixels. -/
def Covers (width height pixelSize stride : Nat) (pages : List FbPage) : Prop :=
  pages.flatMap FbPage.bytes = visible width height pixelSize stride ∧
    (visible width height pixelSize stride).Nodup ∧
    ∀ p ∈ pages.dropLast, p.bytes.length = 1024 * pixelSize

/-- Where the byte `p` of the rows without padding is on a screen. -/
def place (rowSize stride p : Nat) : Nat := p / rowSize * stride + p % rowSize

section
variable {width pixelSize stride : Nat}

theorem place_row {rowSize k j : Nat} (h : j < rowSize) :
    place rowSize stride (k * rowSize + j) = k * stride + j := by
  have hpos : 0 < rowSize := by omega
  obtain ⟨hdiv, hmod⟩ := (Nat.div_mod_unique (a := k * rowSize + j) (d := k) hpos).mpr ⟨by rw [Nat.mul_comm rowSize]; omega, h⟩
  rw [place, hdiv, hmod]

theorem range_place {rowSize k j n : Nat} (h : j + n ≤ rowSize) :
    range' (k * stride + j) n = (range' (k * rowSize + j) n).map (place rowSize stride) := by
  rw [range'_eq_map_range, range'_eq_map_range, List.map_map]
  refine map_congr_left fun i hi => ?_
  have hi := mem_range.mp hi
  rw [Function.comp_apply, Nat.add_assoc, Nat.add_assoc, place_row (by omega)]

theorem place_injective {rowSize : Nat} (hpos : 0 < rowSize) (h : rowSize ≤ stride) :
    Function.Injective (place rowSize stride) := by
  intro p q heq
  have hp := Nat.mod_lt p hpos
  have hq := Nat.mod_lt q hpos
  have hdiv : ∀ x, x % rowSize < rowSize → place rowSize stride x / stride = x / rowSize ∧
      place rowSize stride x % stride = x % rowSize := fun x hx =>
    (Nat.div_mod_unique (by omega)).mpr ⟨by rw [place, Nat.mul_comm stride]; omega, by omega⟩
  rw [← Nat.div_add_mod p rowSize, ← Nat.div_add_mod q rowSize, ← (hdiv p hp).1, ← (hdiv p hp).2,
    ← (hdiv q hq).1, ← (hdiv q hq).2, heq]

theorem visible_eq (height : Nat) : visible width height pixelSize stride =
    (range' 0 (height * (width * pixelSize))).map (place (width * pixelSize) stride) := by
  induction height with
  | zero => rw [Nat.zero_mul]; rfl
  | succ height ih =>
    have hrow := @range_place stride (width * pixelSize) height 0 (width * pixelSize) (by omega)
    rw [visible, range_succ, flatMap_append, ← visible, ih, flatMap_singleton,
      Nat.succ_mul, ← range'_append_1, map_append, Nat.zero_add]
    rw [Nat.add_zero, Nat.add_zero] at hrow
    rw [hrow]

theorem int_eq {n m : Nat} (h : int n = some m) : n = m := by
  unfold int at h
  split at h <;> cases h
  rfl

theorem fbPage_bytes {i : Nat} {p : FbPage} (hw : 640 ≤ width)
    (h : fbPage width pixelSize stride i = some p) :
    p.bytes = (range' (1024 * pixelSize * i) (1024 * pixelSize)).map
      (place (width * pixelSize) stride) ∧
    p.sizeA + p.sizeB + p.sizeC = 1024 * pixelSize ∧
    (p.dstB = none → p.sizeB = 0) := by
  have hmod : 1024 * i % width < width := Nat.mod_lt _ (by omega)
  have hdiv := Nat.div_add_mod (1024 * i) width
  obtain ⟨k, hk⟩ : ∃ k, k = 1024 * i / width := ⟨_, rfl⟩
  obtain ⟨j, hj⟩ : ∃ j, j = 1024 * i % width := ⟨_, rfl⟩
  rw [← hj] at hmod
  rw [← hk, ← hj] at hdiv
  have hsub : (width - j) * pixelSize + j * pixelSize = width * pixelSize := by
    rw [← Nat.add_mul, Nat.sub_add_cancel (by omega)]
  have hstart : 1024 * pixelSize * i = k * (width * pixelSize) + j * pixelSize := by
    rw [Nat.mul_right_comm, ← hdiv, Nat.add_mul, Nat.mul_comm width k, Nat.mul_assoc]
  have htwo : 1024 * pixelSize ≤ 2 * (width * pixelSize) := by
    rw [← Nat.mul_assoc]
    exact Nat.mul_le_mul_right _ (by omega)
  simp only [fbPage, ← hk, ← hj, bind_eq_some_iff] at h
  obtain ⟨t3, ht3, a, ha, h⟩ := h
  cases int_eq ht3
  cases int_eq ha
  have hnext : ∀ m, k * stride + m * stride = (k + m) * stride := fun m => (Nat.add_mul k m _).symm
  split at h
  · rename_i ht2
    have hle : (width - j) * pixelSize ≤ 1024 * pixelSize := Nat.mul_le_mul_right _ (by omega)
    have hfirst := @range_place stride (width * pixelSize) k (j * pixelSize)
      ((width - j) * pixelSize) (by omega)
    have hthen : k * (width * pixelSize) + j * pixelSize + (width - j) * pixelSize =
        (k + 1) * (width * pixelSize) := by
      rw [Nat.succ_mul]
      omega
    rw [bind_eq_some_iff] at h
    obtain ⟨b, hb, h⟩ := h
    cases int_eq hb
    have hsecond := fun n hn => @range_place stride (width * pixelSize) (k + 1) 0 n hn
    simp only [Nat.add_zero, Nat.zero_add, Nat.succ_mul k stride] at hsecond
    split at h
    · rename_i hlong
      obtain ⟨c, hc, rfl⟩ := map_eq_some_iff.mp h
      cases int_eq hc
      have hthird := @range_place stride (width * pixelSize) (k + 2) 0
        (1024 * pixelSize - (width - j) * pixelSize - width * pixelSize) (by omega)
      simp only [Nat.add_zero, ← hnext 2] at hthird
      refine ⟨?_, by dsimp only; omega, nofun⟩
      simp only [FbPage.bytes, pieceBytes]
      rw [hfirst, hsecond _ (Nat.le_refl _), hthird, ← map_append, ← map_append,
        show (k + 2) * (width * pixelSize) = (k + 1) * (width * pixelSize) + width * pixelSize from
          Nat.succ_mul _ _, range'_append_1, ← hthen, range'_append_1, hstart,
        show (width - j) * pixelSize + (width * pixelSize + (1024 * pixelSize -
          (width - j) * pixelSize - width * pixelSize)) = 1024 * pixelSize by omega]
    · rename_i hshort
      cases h
      refine ⟨?_, by dsimp only; omega, nofun⟩
      simp only [FbPage.bytes, pieceBytes, append_nil]
      rw [hfirst, hsecond _ (by omega), ← map_append, ← hthen, range'_append_1, hstart,
        Nat.add_sub_cancel' hle]
  · rename_i ht2
    cases h
    refine ⟨?_, rfl, fun _ => rfl⟩
    have hle : 1024 * pixelSize ≤ (width - j) * pixelSize := Nat.mul_le_mul_right _ (by omega)
    simp only [FbPage.bytes, pieceBytes, append_nil]
    rw [hstart]
    exact range_place (by omega)

theorem fbPages_bytes (hw : 640 ≤ width) : ∀ {n : Nat} {pages : List FbPage},
    fbPages width pixelSize stride n = some pages →
    pages.flatMap FbPage.bytes = (range' 0 (1024 * pixelSize * n)).map
      (place (width * pixelSize) stride) ∧ ∀ p ∈ pages, p.bytes.length = 1024 * pixelSize := by
  intro n
  induction n with
  | zero =>
    intro pages h
    cases h
    simp
  | succ n ih =>
    intro pages h
    obtain ⟨front, hfront, h⟩ := bind_eq_some_iff.mp h
    obtain ⟨p, hp, rfl⟩ := map_eq_some_iff.mp h
    have hbytes := (fbPage_bytes hw hp).1
    have hih := ih hfront
    constructor
    · rw [flatMap_append, flatMap_singleton, hih.1, hbytes, ← map_append,
        Nat.mul_succ, ← range'_append_1, Nat.zero_add]
    · intro q hq
      rcases mem_append.mp hq with hq | hq
      · exact hih.2 q hq
      · simp [mem_singleton.mp hq, hbytes]

theorem take_range' (s n m : Nat) : (range' s n).take m = range' s (min m n) := by
  simp [range'_eq_map_range, ← map_take]

theorem take_pieceBytes (d : Option Nat) (n m : Nat) :
    (pieceBytes d n).take m = pieceBytes d (min m n) := by
  cases d with
  | none => exact take_nil
  | some d => exact take_range' d n m

theorem length_pieceBytes {d : Option Nat} {n : Nat} (h : d = none → n = 0) :
    (pieceBytes d n).length = n := by
  cases d with
  | none => exact (h rfl).symm
  | some d => exact length_range'

theorem pieceBytes_zero (d : Option Nat) : pieceBytes d 0 = [] := by
  cases d <;> rfl

theorem FbPage.trim_bytes {p q : FbPage} {size : Nat} (hb : p.dstB = none → p.sizeB = 0)
    (h : p.trim size = some q) :
    q.bytes = p.bytes.take (p.sizeA + p.sizeB + p.sizeC - size) ∧
      size < p.sizeA + p.sizeB + p.sizeC := by
  have htake : p.bytes.take (p.sizeA + p.sizeB + p.sizeC - size) =
      range' p.dstA (min (p.sizeA + p.sizeB + p.sizeC - size) p.sizeA) ++
        (pieceBytes p.dstB (min (p.sizeA + p.sizeB + p.sizeC - size - p.sizeA) p.sizeB) ++
          pieceBytes p.dstC
            (min (p.sizeA + p.sizeB + p.sizeC - size - p.sizeA - p.sizeB) p.sizeC)) := by
    rw [FbPage.bytes, take_append, take_append, take_range', take_pieceBytes,
      take_pieceBytes, length_range', length_pieceBytes hb]
  rw [htake]
  unfold FbPage.trim at h
  dsimp only at h
  split at h
  · cases h
  cases h
  refine ⟨?_, by omega⟩
  rw [show min (p.sizeA + p.sizeB + p.sizeC - size) p.sizeA =
      p.sizeA - (size - p.sizeC - p.sizeB) by omega,
    show min (p.sizeA + p.sizeB + p.sizeC - size - p.sizeA) p.sizeB =
      p.sizeB - (size - p.sizeC) by omega,
    show min (p.sizeA + p.sizeB + p.sizeC - size - p.sizeA - p.sizeB) p.sizeC =
      p.sizeC - size by omega, FbPage.bytes]
  by_cases hsc : p.sizeC ≤ size <;> by_cases hsb : p.sizeB ≤ size - p.sizeC
  · simp only [if_pos hsc, if_pos hsb, Nat.sub_eq_zero_of_le hsc, Nat.sub_eq_zero_of_le hsb,
      pieceBytes_zero]
  · simp only [if_pos hsc, if_neg hsb, Nat.sub_eq_zero_of_le hsc, pieceBytes_zero]
  · simp only [if_neg hsc, if_pos hsb, Nat.sub_eq_zero_of_le hsb, pieceBytes_zero]
  · simp only [if_neg hsc, if_neg hsb]

end

section
variable {width height pixelSize stride standardSize : Nat} {memory : Bool} {entry : Nat → Bool}
  {pages : List FbPage}

theorem fbInit_accepted
    (h : fbInit width height pixelSize stride standardSize memory entry =
      some (.accepted pages)) :
    640 ≤ width ∧ ∃ all, fbPages width pixelSize stride (pageCount standardSize) = some all ∧
      ((width * height * pixelSize < 1024 * pixelSize * pageCount standardSize ∧
        ∃ p q, all.getLast? = some p ∧ pages = all.dropLast ++ [q] ∧
          p.trim (1024 * pixelSize * pageCount standardSize - width * height * pixelSize) =
            some q) ∨
      (1024 * pixelSize * pageCount standardSize ≤ width * height * pixelSize ∧ pages = all)) := by
  unfold fbInit at h
  split at h
  · cases h
  rename_i hsize
  split at h
  · cases h
  obtain ⟨v, hv, h⟩ := bind_eq_some_iff.mp h
  cases int_eq hv
  iterate 3
    split at h
    · cases h
  obtain ⟨all, hall, h⟩ := map_eq_some_iff.mp h
  refine ⟨by omega, all, hall, ?_⟩
  split at h
  · cases h
  dsimp only at h
  split at h
  · rename_i hmore
    split at h
    · cases h
    · rename_i q hq
      obtain ⟨p, hp, htrim⟩ := bind_eq_some_iff.mp hq
      cases h
      exact .inl ⟨hmore, p, q, hp, rfl, htrim⟩
  · rename_i hless
    cases h
    exact .inr ⟨Nat.le_of_not_lt hless, rfl⟩

/-- An accepted frame buffer maps the visible bytes of all rows, each of
them once and in order, just when the pages of the standard buffer hold its
pixels of four bytes. -/
theorem fbInit_covers (hps : 0 < pixelSize) (hstride : width * pixelSize ≤ stride)
    (h : fbInit width height pixelSize stride standardSize memory entry =
      some (.accepted pages)) :
    Covers width height pixelSize stride pages ↔ width * height ≤ 1024 * pageCount standardSize := by
  obtain ⟨hw, all, hall, hpages⟩ := fbInit_accepted h
  have hrow : 0 < width * pixelSize := Nat.mul_pos (by omega) hps
  obtain ⟨hflat, hlen⟩ := fbPages_bytes hw hall
  have hvisible := @visible_eq width pixelSize stride height
  have htotal : height * (width * pixelSize) = width * height * pixelSize := by
    rw [← Nat.mul_assoc, Nat.mul_comm height]
  rw [htotal] at hvisible
  have hnodup : (visible width height pixelSize stride).Nodup := by
    rw [hvisible]
    exact List.Nodup.map (place_injective hrow hstride) nodup_range'
  have hiff : width * height ≤ 1024 * pageCount standardSize ↔
      width * height * pixelSize ≤ 1024 * pixelSize * pageCount standardSize := by
    rw [Nat.mul_right_comm 1024]
    exact (Nat.mul_le_mul_right_iff hps).symm
  rw [hiff]
  rcases hpages with ⟨hmore, p, q, hlast, rfl, htrim⟩ | ⟨hless, rfl⟩
  · refine iff_of_true ?_ (Nat.le_of_lt hmore)
    cases hn : pageCount standardSize with
    | zero => simp [hn] at hmore
    | succ n =>
      rw [hn] at hall
      obtain ⟨front, hfront, hback⟩ := bind_eq_some_iff.mp hall
      obtain ⟨p', hp, rfl⟩ := map_eq_some_iff.mp hback
      rw [getLast?_concat] at hlast
      cases hlast
      rw [dropLast_concat]
      obtain ⟨hbytes, hsum, hb⟩ := fbPage_bytes hw hp
      obtain ⟨hqb, hlt⟩ := FbPage.trim_bytes hb htrim
      rw [hn, Nat.mul_succ] at hlt hqb hmore
      refine ⟨?_, hnodup, fun r hr => hlen r (mem_append_left _ (by simpa using hr))⟩
      rw [flatMap_append, flatMap_singleton, (fbPages_bytes hw hfront).1, hqb, hbytes,
        ← map_take, take_range', ← map_append, hvisible]
      have hall : width * height * pixelSize = 1024 * pixelSize * n +
          min (p.sizeA + p.sizeB + p.sizeC - (1024 * pixelSize * n + 1024 * pixelSize -
            width * height * pixelSize)) (1024 * pixelSize) := by omega
      conv_rhs => rw [hall, ← range'_append_1, Nat.zero_add]
  · constructor
    · rintro ⟨hcover, _⟩
      have hcount := congrArg length hcover
      rw [hflat, hvisible, length_map, length_map, length_range', length_range'] at hcount
      omega
    · intro hle
      refine ⟨?_, hnodup, fun p hp => hlen p (dropLast_subset _ hp)⟩
      rw [hflat, hvisible, Nat.le_antisymm hle hless]

def FbInit.isAccepted : FbInit → Bool
  | .rejected => false
  | .accepted _ => true

theorem exists_accepted {r : Option FbInit} (h : r.any FbInit.isAccepted = true) :
    ∃ pages, r = some (.accepted pages) := by
  obtain ⟨_ | pages, rfl, hr⟩ := (Option.any_eq_true ..).mp h
  · cases hr
  · exact ⟨pages, rfl⟩

theorem fbInit_covers_small : ∃ pages, fbInit 640 480 4 2560 0x12C000 true (fun _ => true) =
    some (.accepted pages) ∧ Covers 640 480 4 2560 pages := by
  obtain ⟨pages, h⟩ := exists_accepted (r := fbInit 640 480 4 2560 0x12C000 true fun _ => true)
    (by decide +kernel)
  exact ⟨pages, h, (fbInit_covers (by decide) (by decide) h).mpr (by decide)⟩

/-- A screen of 640 by 480 pixels of one byte, with a quarter of the pages. -/
theorem fbInit_small : ∃ pages, fbInit 640 480 1 640 0x4B000 true (fun _ => true) =
    some (.accepted pages) := exists_accepted (by decide +kernel)

theorem fbInit_uncovered : ¬ ∀ pages, fbInit 640 480 1 640 0x4B000 true (fun _ => true) =
    some (.accepted pages) → Covers 640 480 1 640 pages := by
  intro hall
  obtain ⟨pages, h⟩ := fbInit_small
  obtain ⟨hw, all, hfb, hpages⟩ := fbInit_accepted h
  have hcount : pageCount 0x4B000 = 75 := by decide
  rw [hcount] at hfb hpages
  rcases hpages with ⟨hmore, _⟩ | ⟨_, rfl⟩
  · exact absurd hmore (by decide)
  · have hlen := congrArg length (hall _ h).1
    rw [(fbPages_bytes hw hfb).1, visible_eq, length_map, length_map,
      length_range', length_range'] at hlen
    exact absurd hlen (by decide)

end

end Dancy.Fb
