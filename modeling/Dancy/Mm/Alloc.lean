import Dancy.Lib.Run
import Mathlib.Data.Nat.Bitwise

/-!
# Page frames (`mm.c`)

`mm_bitmap` has one bit for each page frame, set while the frame is in
use: bit `f % 8` of byte `f / 8` belongs to frame `f`. The three loops
of the source walk a range of frames with a bit number `b` and a byte
number `i`; `frameUsed` is the view the rest of the development takes of
the bytes, and each loop gets one lemma in terms of it.
-/

namespace Dancy.Mm

open Function Dancy.Lib List

/-- The bytes of `mm_bitmap`. -/
abbrev Bitmap := Nat → BitVec 8

def frameUsed (bm : Bitmap) (f : Nat) : Bool :=
  (bm (f / 8)).getLsbD (f % 8)

/-- The loop shared by `mm_bitmap_clear` and `mm_bitmap_set`: `b` is the
bit number, `i` the byte number, and `f` what is done to a byte. -/
def mmBitmapUpdate (f : BitVec 8 → Nat → BitVec 8) :
    Nat → Nat → Bitmap → Nat → Bitmap
  | _, _, bm, 0 => bm
  | b, i, bm, pageCount + 1 =>
    let b' := (b + 1) &&& 7
    mmBitmapUpdate f b' (if b' = 0 then i + 1 else i)
      (update bm i (f (bm i) b)) pageCount

def mmBitmapClear (bm : Bitmap) (pageFrame pageCount : Nat) : Bitmap :=
  mmBitmapUpdate (fun val b => val &&& ~~~(1#8 <<< b))
    (pageFrame &&& 7) (pageFrame >>> 3) bm pageCount

def mmBitmapSet (bm : Bitmap) (pageFrame pageCount : Nat) : Bitmap :=
  mmBitmapUpdate (fun val b => val ||| (1#8 <<< b))
    (pageFrame &&& 7) (pageFrame >>> 3) bm pageCount

def mmBitmapTestLoop (bm : Bitmap) : Nat → Nat → Nat → Bool
  | _, _, 0 => false
  | b, i, pageCount + 1 =>
    if bm i &&& (1#8 <<< b) ≠ 0 then true
    else
      let b' := (b + 1) &&& 7
      mmBitmapTestLoop bm b' (if b' = 0 then i + 1 else i) pageCount

def mmBitmapTest (bm : Bitmap) (pageFrame pageCount : Nat) : Bool :=
  mmBitmapTestLoop bm (pageFrame &&& 7) (pageFrame >>> 3) pageCount

/-! ## One bit -/

theorem and_seven (n : Nat) : n &&& 7 = n % 8 :=
  Nat.and_two_pow_sub_one_eq_mod n 3

theorem shiftRight_three (n : Nat) : n >>> 3 = n / 8 := by
  omega

variable {b i f n : Nat} {order : Int} {s : MmState} (bm : Bitmap)

theorem next_position (hb : b < 8) :
    (b + 1) &&& 7 < 8 ∧ 8 * (if (b + 1) &&& 7 = 0 then i + 1 else i) + ((b + 1) &&& 7)
        = 8 * i + b + 1 := by
  rw [and_seven]
  split <;> omega

theorem getLsbD_bit (b k : Nat) (hk : k < 8) :
    (1#8 <<< b).getLsbD k = decide (k = b) := by
  rcases Nat.lt_trichotomy k b with h | h | h
  · simp [h, ne_of_lt h]
  · subst h
    simp [hk]
  · have hkb : k - b ≠ 0 := by omega
    simp [hkb, ne_of_gt h]

theorem frameUsed_update_set (hb : b < 8) (f : Nat) :
    frameUsed (update bm i (bm i ||| (1#8 <<< b))) f
      = (frameUsed bm f || decide (f = 8 * i + b)) := by
  have hf : f % 8 < 8 := Nat.mod_lt _ (by omega)
  by_cases hi : f / 8 = i
  · have heq : (f % 8 = b) ↔ (f = 8 * i + b) := by omega
    simp [frameUsed, hi, getLsbD_bit b _ hf, heq]
  · have hne : f ≠ 8 * i + b := by omega
    simp [frameUsed, update_of_ne hi, hne]

theorem frameUsed_update_clear (hb : b < 8) (f : Nat) :
    frameUsed (update bm i (bm i &&& ~~~(1#8 <<< b))) f
      = (frameUsed bm f && !decide (f = 8 * i + b)) := by
  have hf : f % 8 < 8 := Nat.mod_lt _ (by omega)
  by_cases hi : f / 8 = i
  · have heq : (f % 8 = b) ↔ (f = 8 * i + b) := by omega
    rw [frameUsed, hi, update_self, BitVec.getLsbD_and, BitVec.getLsbD_not,
      getLsbD_bit b _ hf, frameUsed, hi]
    simp [hf, heq]
  · have hne : f ≠ 8 * i + b := by omega
    simp [frameUsed, update_of_ne hi, hne]

theorem and_bit_ne_zero_iff (x : BitVec 8) (hb : b < 8) :
    x &&& (1#8 <<< b) ≠ 0 ↔ x.getLsbD b = true := by
  constructor
  · intro hne
    by_contra hx
    apply hne
    apply BitVec.eq_of_getLsbD_eq
    intro k hk
    rw [BitVec.getLsbD_and, getLsbD_bit b k hk]
    by_cases hkb : k = b
    · subst hkb
      simp [hx]
    · simp [hkb]
  · intro hx h0
    have hbit : (x &&& (1#8 <<< b)).getLsbD b = true := by
      rw [BitVec.getLsbD_and, getLsbD_bit b b hb]
      simp [hx]
    rw [h0] at hbit
    simp at hbit

theorem frameUsed_of_byte {bm : Bitmap} (h : bm (f / 8) = 0xFF#8) : frameUsed bm f = true := by
  have hall : ∀ k, k < 8 → (0xFF#8).getLsbD k = true := by decide
  rw [frameUsed, h]
  exact hall _ (Nat.mod_lt _ (by omega))

/-- A loop that gives each bit it comes to the value `v`. -/
theorem frameUsed_mmBitmapUpdate (v : Bool) {op : BitVec 8 → Nat → BitVec 8}
    (hop : ∀ (bm : Bitmap) (i b f : Nat), b < 8 → frameUsed (update bm i (op (bm i) b)) f =
      if f = 8 * i + b then v else frameUsed bm f) :
    ∀ (n b i : Nat) (bm : Bitmap) (f : Nat), b < 8 → frameUsed (mmBitmapUpdate op b i bm n) f =
      if 8 * i + b ≤ f ∧ f < 8 * i + b + n then v else frameUsed bm f := by
  intro n
  induction n with
  | zero =>
    intro b i bm f hb
    rw [mmBitmapUpdate, if_neg (by omega)]
  | succ n ih =>
    intro b i bm f hb
    obtain ⟨hb', hpos⟩ := next_position hb
    rw [mmBitmapUpdate, ih _ _ _ _ hb', hop _ _ _ _ hb, hpos]
    split_ifs <;> first | rfl | omega

theorem mmBitmapTestLoop_eq_true : ∀ (n b i : Nat) (bm : Bitmap), b < 8 →
    (mmBitmapTestLoop bm b i n = true ↔
      ∃ f, 8 * i + b ≤ f ∧ f < 8 * i + b + n ∧ frameUsed bm f = true) := by
  intro n
  induction n with
  | zero =>
    intro b i bm hb
    constructor
    · intro h; simp [mmBitmapTestLoop] at h
    · omega
  | succ n ih =>
    intro b i bm hb
    obtain ⟨hb', hpos⟩ := next_position hb
    have hself : frameUsed bm (8 * i + b) = (bm i).getLsbD b := by
      rw [frameUsed, show (8 * i + b) / 8 = i by omega, show (8 * i + b) % 8 = b by omega]
    rw [mmBitmapTestLoop]
    by_cases hbit : (bm i).getLsbD b = true
    · rw [if_pos ((and_bit_ne_zero_iff _ hb).mpr hbit)]
      exact ⟨fun _ => ⟨8 * i + b, by omega, by omega, by rw [hself, hbit]⟩, fun _ => rfl⟩
    rw [if_neg (fun h => hbit ((and_bit_ne_zero_iff _ hb).mp h)), ih _ _ _ hb', hpos]
    constructor
    · rintro ⟨f, h1, h2, hf⟩
      exact ⟨f, by omega, by omega, hf⟩
    rintro ⟨f, h1, h2, hf⟩
    have hne : f ≠ 8 * i + b := by
      rintro rfl
      exact hbit (hself ▸ hf)
    exact ⟨f, by omega, by omega, hf⟩

def RangeFree (bm : Bitmap) (pageFrame pageCount : Nat) : Prop :=
  ∀ f, pageFrame ≤ f → f < pageFrame + pageCount → frameUsed bm f = false

theorem start_position (pageFrame : Nat) :
    pageFrame &&& 7 < 8 ∧ 8 * (pageFrame >>> 3) + (pageFrame &&& 7) = pageFrame := by
  rw [and_seven, shiftRight_three]
  omega

theorem frameUsed_mmBitmapSet (pageFrame pageCount f : Nat) :
    frameUsed (mmBitmapSet bm pageFrame pageCount) f
      = (frameUsed bm f || decide (pageFrame ≤ f ∧ f < pageFrame + pageCount)) := by
  obtain ⟨hb, hpos⟩ := start_position pageFrame
  rw [mmBitmapSet, frameUsed_mmBitmapUpdate true (fun bm i b f hb => ?_) _ _ _ _ _ hb, hpos]
  · split <;> simp [*]
  · rw [frameUsed_update_set bm hb]
    split <;> simp [*]

theorem frameUsed_mmBitmapClear (pageFrame pageCount f : Nat) :
    frameUsed (mmBitmapClear bm pageFrame pageCount) f
      = (frameUsed bm f && !decide (pageFrame ≤ f ∧ f < pageFrame + pageCount)) := by
  obtain ⟨hb, hpos⟩ := start_position pageFrame
  rw [mmBitmapClear, frameUsed_mmBitmapUpdate false (fun bm i b f hb => ?_) _ _ _ _ _ hb, hpos]
  · split <;> simp [*]
  · rw [frameUsed_update_clear bm hb]
    split <;> simp [*]

theorem mmBitmapTest_eq_false (pageFrame pageCount : Nat) :
    mmBitmapTest bm pageFrame pageCount = false ↔ RangeFree bm pageFrame pageCount := by
  obtain ⟨hb, hpos⟩ := start_position pageFrame
  have h := mmBitmapTestLoop_eq_true pageCount _ (pageFrame >>> 3) bm hb
  rw [hpos] at h
  rw [mmBitmapTest, ← Bool.not_eq_true, h]
  constructor
  · intro hno f h1 h2
    by_contra hf
    exact hno ⟨f, h1, h2, by simpa using hf⟩
  · rintro hfree ⟨f, h1, h2, hf⟩
    rw [hfree f h1 h2] at hf
    cases hf

/-! ## The physical frame allocator (`mm.c`) -/

/-- `enum mm_type`; `other` is every value outside the enumeration. -/
inductive MmType where
  | normal | addr36 | addr32 | addr28 | addr24 | addr20 | kernel | other
  deriving DecidableEq

/-- The static variables of `mm.c`. -/
structure MmState where
  mmReady : Bool
  (mmBitmapSize mmBitmapUsed : Nat)
  mmBitmap : Bitmap

/-- `mm_get_count`: the table of the eleven orders, `0` outside. -/
def mmGetCount (order : Int) : Nat :=
  if 0 ≤ order ∧ order < 11 then
    [0x0001, 0x0002, 0x0004, 0x0008, 0x0010, 0x0020, 0x0040, 0x0080,
      0x0100, 0x0200, 0x0400].getD order.toNat 0
  else 0

/-- The first loop of both allocation functions: full bytes at the end
move into `mm_bitmap_used`. The arguments are `size`, `mm_bitmap_used`
and `page_frame`; the last two are returned. -/
def trimUsed (bm : Bitmap) : Nat → Nat → Nat → Nat × Nat
  | 0, used, pageFrame => (used, pageFrame)
  | size + 1, used, pageFrame =>
    if bm size = 0xFF#8 then trimUsed bm size (used + 1) (pageFrame - 8)
    else (used, pageFrame)

/-- The search of `mm_alloc_page`: one frame at a time, frame `0` never. -/
def findPage (bm : Bitmap) : Nat → Option Nat
  | 0 => none
  | pageFrame + 1 =>
    if bm ((pageFrame + 1) >>> 3) &&& (1#8 <<< ((pageFrame + 1) &&& 7)) = 0 then
      some (pageFrame + 1)
    else findPage bm pageFrame

def mmAllocPage (s : MmState) : Nat × MmState :=
  if !s.mmReady then (0, s)
  else
    let size := s.mmBitmapSize - s.mmBitmapUsed
    let (used, pageFrame) := trimUsed s.mmBitmap size s.mmBitmapUsed (size * 8)
    let pageFrame := if pageFrame ≠ 0 then pageFrame - 1 else pageFrame
    let s := { s with mmBitmapUsed := used }
    match findPage s.mmBitmap pageFrame with
    | none => (0, s)
    | some f =>
      let i := f >>> 3
      let t := 1#8 <<< (f &&& 7)
      (f * 0x1000, { s with mmBitmap := update s.mmBitmap i (s.mmBitmap i ||| t) })

/-- The clamping of `page_frame` by the memory type. -/
def clampFrame (type : MmType) (pageFrame : Nat) : Nat :=
  match type with
  | .normal => pageFrame
  | .addr36 => if pageFrame > 0x1000000 then 0x1000000 else pageFrame
  | .addr32 => if pageFrame > 0x100000 then 0x100000 else pageFrame
  | .addr28 => if pageFrame > 0x10000 then 0x10000 else pageFrame
  | .addr24 => if pageFrame > 0x1000 then 0x1000 else pageFrame
  | .addr20 => if pageFrame > 0x100 then 0x100 else pageFrame
  | .kernel => if pageFrame > 0x10000 then 0x10000 else pageFrame
  | .other => 0

/-- The search of `mm_alloc_pages`: aligned blocks from the top. Each
round lowers `page_frame` by `page_count`, so `page_frame` rounds are
more than enough (`findPages_none`). -/
def findPages (bm : Bitmap) (pageCount : Nat) : Nat → Nat → Option Nat
  | 0, _ => none
  | fuel + 1, pageFrame =>
    if pageFrame = 0 then none
    else if !mmBitmapTest bm pageFrame pageCount then some pageFrame
    else findPages bm pageCount fuel (pageFrame - pageCount)

def mmAllocPages (s : MmState) (type : MmType) (order : Int) : Nat × MmState :=
  let pageCount := mmGetCount order
  if !s.mmReady || pageCount == 0 then (0, s)
  else
    let size := s.mmBitmapSize - s.mmBitmapUsed
    let (used, pageFrame) := trimUsed s.mmBitmap size s.mmBitmapUsed (size * 8)
    let pageFrame := clampFrame type pageFrame
    -- `(page_frame - 1) & ~(page_count - 1)`, the count being a power of two
    let pageFrame :=
      if pageFrame ≠ 0 then (pageFrame - 1) - (pageFrame - 1) % pageCount else pageFrame
    let s := { s with mmBitmapUsed := used }
    match findPages s.mmBitmap pageCount pageFrame pageFrame with
    | none => (0, s)
    | some f => (f * 0x1000, { s with mmBitmap := mmBitmapSet s.mmBitmap f pageCount })

/-- The end of both free functions: byte `i` is no longer full. -/
def lowerUsed (s : MmState) (i : Nat) : MmState :=
  let i := (s.mmBitmapSize - i) - 1
  if s.mmBitmapUsed > i then { s with mmBitmapUsed := i } else s

def mmFreePage (s : MmState) (addr : Nat) : MmState :=
  let pageFrame := addr >>> 12
  if !s.mmReady || pageFrame == 0 then s
  else
    let i := pageFrame / 8
    if i ≥ s.mmBitmapSize then s
    else
      let b := pageFrame &&& 7
      lowerUsed
        { s with
          mmBitmap := update s.mmBitmap i (s.mmBitmap i &&& ~~~(1#8 <<< b)) } i

def mmFreePages (s : MmState) (addr : Nat) (order : Int) : MmState :=
  let pageFrame := addr >>> 12
  let pageCount := mmGetCount order
  if !s.mmReady || pageCount == 0 then s
  -- `page_frame & (page_count - 1)`, the count being a power of two
  else if pageFrame == 0 || pageFrame % pageCount != 0 then s
  else
    let i := (pageFrame + (pageCount - 1)) / 8
    if i ≥ s.mmBitmapSize then s
    else lowerUsed { s with mmBitmap := mmBitmapClear s.mmBitmap pageFrame pageCount } i

/-! ## The order table and the type limits -/

/-- The frames below which a block of the given type must lie. -/
def frameLimit (s : MmState) : MmType → Nat
  | .normal => 8 * s.mmBitmapSize
  | .addr36 => 0x1000000
  | .addr32 => 0x100000
  | .addr28 => 0x10000
  | .addr24 => 0x1000
  | .addr20 => 0x100
  | .kernel => 0x10000
  | .other => 0

theorem mmGetCount_cases (order : Int) :
    mmGetCount order = 0 ∨ ∃ k, k ≤ 10 ∧ mmGetCount order = 2 ^ k := by
  unfold mmGetCount
  split
  · obtain ⟨k, rfl⟩ : ∃ k : Nat, order = k := ⟨order.toNat, by omega⟩
    have hk : k < 11 := by omega
    have hall : ∀ k, k < 11 → [0x0001, 0x0002, 0x0004, 0x0008, 0x0010, 0x0020, 0x0040, 0x0080,
          0x0100, 0x0200, 0x0400].getD k 0 = 2 ^ k := by decide
    exact .inr ⟨k, by omega, by simpa using hall k hk⟩
  · exact .inl rfl

/-- The count divides `0x400`, hence the size of every bitmap of whole
pages. -/
theorem mmGetCount_dvd (h : mmGetCount order ≠ 0) : mmGetCount order ∣ 0x400 := by
  rcases mmGetCount_cases order with h0 | ⟨k, hk, hpow⟩
  · exact absurd h0 h
  · rw [hpow]
    exact pow_dvd_pow 2 hk

theorem clampFrame_le (type : MmType) (pageFrame : Nat) :
    clampFrame type pageFrame ≤ pageFrame := by
  cases type with
  | normal => rfl
  | other => exact Nat.zero_le _
  | _ => simp only [clampFrame]; split <;> omega

theorem clampFrame_le_limit (s : MmState) (type : MmType) {pageFrame : Nat}
    (h : pageFrame ≤ 8 * s.mmBitmapSize) : clampFrame type pageFrame ≤ frameLimit s type := by
  cases type with
  | normal => exact h
  | other => rfl
  | _ => simp only [clampFrame, frameLimit]; split <;> omega

/-- What lies below the limit and below `page_frame` lies below the
clamped `page_frame`. -/
theorem le_clampFrame (s : MmState) (type : MmType) {f pageFrame : Nat}
    (h1 : f ≤ frameLimit s type) (h2 : f ≤ pageFrame) : f ≤ clampFrame type pageFrame := by
  cases type with
  | normal => exact h2
  | other => exact h1
  | _ => simp only [clampFrame]; simp only [frameLimit] at h1; split <;> omega

/-- `mm_bitmap_used` describes a completely used suffix of the bitmap. -/
structure HintCovers (s : MmState) : Prop where
  le_size : s.mmBitmapUsed ≤ s.mmBitmapSize
  full : ∀ i, s.mmBitmapSize - s.mmBitmapUsed ≤ i → i < s.mmBitmapSize → s.mmBitmap i = 0xFF#8

theorem HintCovers.frameUsed (h : HintCovers s) (h1 : 8 * (s.mmBitmapSize - s.mmBitmapUsed) ≤ f)
    (h2 : f < 8 * s.mmBitmapSize) : frameUsed s.mmBitmap f = true :=
  frameUsed_of_byte (h.full (f / 8) (by omega) (by omega))

/-- The trimming loop keeps the hint valid, and its `page_frame` is the
first frame of the new suffix. -/
theorem trimUsed_spec (bitmapSize : Nat) :
    ∀ (size used : Nat), size + used = bitmapSize →
      (∀ i, size ≤ i → i < bitmapSize → bm i = 0xFF#8) →
      let r := trimUsed bm size used (size * 8)
      r.1 ≤ bitmapSize ∧ r.2 = 8 * (bitmapSize - r.1) ∧
        ∀ i, bitmapSize - r.1 ≤ i → i < bitmapSize → bm i = 0xFF#8 := by
  intro size
  induction size with
  | zero =>
    intro used hsum hfull
    simp only [trimUsed]
    exact ⟨by omega, by omega, fun i _ h2 => hfull i (by omega) h2⟩
  | succ size ih =>
    intro used hsum hfull
    simp only [trimUsed]
    split
    · rename_i hbyte
      rw [show (size + 1) * 8 - 8 = size * 8 by omega]
      refine ih (used + 1) (by omega) (fun i h1 h2 => ?_)
      rcases eq_or_lt_of_le h1 with rfl | hlt
      · exact hbyte
      · exact hfull i hlt h2
    · exact ⟨by omega, by omega, fun i h1 h2 => hfull i (by omega) h2⟩

/-- The state after the trimming loop of either allocation function. -/
def trimmed (s : MmState) : MmState :=
  { s with
    mmBitmapUsed := (trimUsed s.mmBitmap (s.mmBitmapSize - s.mmBitmapUsed)
      s.mmBitmapUsed ((s.mmBitmapSize - s.mmBitmapUsed) * 8)).1 }

theorem trimmed_spec (h : HintCovers s) :
    HintCovers (trimmed s) ∧ (trimUsed s.mmBitmap (s.mmBitmapSize - s.mmBitmapUsed) s.mmBitmapUsed
        ((s.mmBitmapSize - s.mmBitmapUsed) * 8)).2
        = 8 * ((trimmed s).mmBitmapSize - (trimmed s).mmBitmapUsed) := by
  have hle := h.le_size
  obtain ⟨h1, h2, h3⟩ := trimUsed_spec s.mmBitmap s.mmBitmapSize
    (s.mmBitmapSize - s.mmBitmapUsed) s.mmBitmapUsed (by omega) h.full
  exact ⟨⟨h1, h3⟩, h2⟩

theorem testBit_frame (f : Nat) :
    bm (f >>> 3) &&& (1#8 <<< (f &&& 7)) = 0 ↔ frameUsed bm f = false := by
  have hb : f &&& 7 < 8 := (start_position f).1
  have h := and_bit_ne_zero_iff (bm (f >>> 3)) hb
  rw [frameUsed, ← and_seven, ← shiftRight_three, ← Bool.not_eq_true, ← h, not_not]

theorem findPage_some {bm : Bitmap} :
    ∀ {pageFrame : Nat}, findPage bm pageFrame = some f →
      0 < f ∧ f ≤ pageFrame ∧ frameUsed bm f = false := by
  intro pageFrame
  induction pageFrame with
  | zero => intro h; cases h
  | succ pageFrame ih =>
    intro h
    rw [findPage] at h
    split at h
    · rename_i hbit
      cases h
      exact ⟨by omega, le_rfl, (testBit_frame bm _).mp hbit⟩
    · obtain ⟨h1, h2, h3⟩ := ih h
      exact ⟨h1, by omega, h3⟩

theorem findPage_none {bm : Bitmap} :
    ∀ {pageFrame : Nat}, findPage bm pageFrame = none →
      ∀ f, 0 < f → f ≤ pageFrame → frameUsed bm f = true := by
  intro pageFrame
  induction pageFrame with
  | zero => omega
  | succ pageFrame ih =>
    intro h f h1 h2
    rw [findPage] at h
    split at h
    · cases h
    rename_i hbit
    rcases eq_or_lt_of_le h2 with rfl | hlt
    · rw [testBit_frame] at hbit
      simpa using hbit
    · exact ih h f h1 (by omega)

theorem findPages_some {bm : Bitmap} :
    ∀ {fuel pageFrame : Nat}, n ∣ pageFrame → findPages bm n fuel pageFrame = some f →
      0 < f ∧ f ≤ pageFrame ∧ n ∣ f ∧ RangeFree bm f n := by
  intro fuel
  induction fuel with
  | zero => intro pageFrame _ h; cases h
  | succ fuel ih =>
    intro pageFrame hdvd h
    rw [findPages] at h
    split at h
    · cases h
    rename_i hne
    split at h
    · rename_i htest
      cases h
      exact ⟨Nat.pos_of_ne_zero hne, le_rfl, hdvd,
        (mmBitmapTest_eq_false ..).mp (by simpa using htest)⟩
    · obtain ⟨h1, h2, h3, h4⟩ := ih (Nat.dvd_sub hdvd (dvd_refl n)) h
      exact ⟨h1, by omega, h3, h4⟩

theorem findPages_none {bm : Bitmap} (hn : 0 < n) :
    ∀ {fuel pageFrame : Nat}, pageFrame ≤ fuel → n ∣ pageFrame →
      findPages bm n fuel pageFrame = none →
      ∀ f, 0 < f → f ≤ pageFrame → n ∣ f → ¬ RangeFree bm f n := by
  intro fuel
  induction fuel with
  | zero => omega
  | succ fuel ih =>
    intro pageFrame hle hdvd h f h1 h2 hf
    rw [findPages] at h
    split at h
    · omega
    split at h
    · cases h
    rename_i htest
    rcases eq_or_lt_of_le h2 with rfl | hlt
    · rw [← mmBitmapTest_eq_false]
      simpa using htest
    -- both are multiples of `n`, so the next one below is the next candidate
    have hstep : f ≤ pageFrame - n := by
      obtain ⟨a, rfl⟩ := hf
      obtain ⟨b, rfl⟩ := hdvd
      have hab : a + 1 ≤ b := Nat.lt_of_mul_lt_mul_left hlt
      have := Nat.mul_le_mul_left n hab
      rw [mul_add] at this
      omega
    exact ih (by omega) (Nat.dvd_sub hdvd (dvd_refl n)) h f h1 hstep hf

/-! ## One specification for each function -/

/-- A block of `n` frames at `f` that an allocation of the type could
return: aligned to its size, without frame `0`, below the limit, inside
the bitmap and free. -/
structure Suitable (s : MmState) (type : MmType) (n f : Nat) : Prop where
  pos : 0 < n
  frame_pos : 0 < f
  aligned : n ∣ f
  below : f + n ≤ frameLimit s type
  inside : f + n ≤ 8 * s.mmBitmapSize
  free : RangeFree s.mmBitmap f n

/-- `s'` is `s` with the frames `f .. f + n - 1` in use (the hint may
have moved). -/
structure Taken (s s' : MmState) (f n : Nat) : Prop where
  ready : s'.mmReady = s.mmReady
  size : s'.mmBitmapSize = s.mmBitmapSize
  used : ∀ g, frameUsed s'.mmBitmap g
    = (frameUsed s.mmBitmap g || decide (f ≤ g ∧ g < f + n))

/-- `s'` is `s` with the frames `f .. f + n - 1` free. -/
structure Released (s s' : MmState) (f n : Nat) : Prop where
  ready : s'.mmReady = s.mmReady
  size : s'.mmBitmapSize = s.mmBitmapSize
  used : ∀ g, frameUsed s'.mmBitmap g
    = (frameUsed s.mmBitmap g && !decide (f ≤ g ∧ g < f + n))

/-- What an allocation of `n` frames of a type does. -/
structure Allocates (s : MmState) (type : MmType) (n : Nat) (r : Nat × MmState) : Prop where
  hint : HintCovers r.2
  outcome : (r.1 = 0 ∧ Taken s r.2 0 0 ∧ ∀ f, ¬ Suitable s type n f) ∨
    ∃ f, r.1 = f * 0x1000 ∧ Suitable s type n f ∧ Taken s r.2 f n

theorem taken_nothing {s s' : MmState} (h1 : s'.mmReady = s.mmReady)
    (h2 : s'.mmBitmapSize = s.mmBitmapSize) (h3 : s'.mmBitmap = s.mmBitmap) :
    Taken s s' 0 0 :=
  ⟨h1, h2, fun g => by simp [h3]⟩

theorem HintCovers.set (h : HintCovers s) {bm : Bitmap}
    (hbm : ∀ i, s.mmBitmap i = 0xFF#8 → bm i = 0xFF#8) : HintCovers { s with mmBitmap := bm } :=
  ⟨h.le_size, fun i h1 h2 => hbm i (h.full i h1 h2)⟩

theorem byte_full_iff (i : Nat) : bm i = 0xFF#8 ↔ ∀ f, f / 8 = i → frameUsed bm f = true := by
  constructor
  · rintro h f rfl
    exact frameUsed_of_byte h
  intro h
  apply BitVec.eq_of_getLsbD_eq
  intro k hk
  have hall : ∀ k, k < 8 → (0xFF#8).getLsbD k = true := by decide
  have hfk := h (8 * i + k) (by omega)
  rw [frameUsed, show (8 * i + k) / 8 = i by omega, show (8 * i + k) % 8 = k by omega] at hfk
  rw [hfk, hall k hk]

theorem byte_full_of_used {bm bm' : Bitmap}
    (h : ∀ f, frameUsed bm f = true → frameUsed bm' f = true) (i : Nat)
    (hi : bm i = 0xFF#8) : bm' i = 0xFF#8 :=
  (byte_full_iff bm' i).mpr fun f hf => h f ((byte_full_iff bm i).mp hi f hf)

theorem mmAllocPage_spec (hready : s.mmReady = true) (h : HintCovers s) :
    Allocates s .normal 1 (mmAllocPage s) := by
  obtain ⟨ht, hpf⟩ := trimmed_spec h
  -- the frame the search starts from: every frame above it is in use
  have htop : ∀ f, Suitable s .normal 1 f →
      f < 8 * ((trimmed s).mmBitmapSize - (trimmed s).mmBitmapUsed) := by
    intro f hf
    by_contra hge
    have hused := ht.frameUsed (f := f) (by omega) (by have := hf.inside; exact this)
    have hfree := hf.free f le_rfl (by omega)
    rw [show (trimmed s).mmBitmap = s.mmBitmap from rfl, hfree] at hused
    cases hused
  have hdef : mmAllocPage s = match findPage s.mmBitmap
        (if 8 * ((trimmed s).mmBitmapSize - (trimmed s).mmBitmapUsed) ≠ 0 then
          8 * ((trimmed s).mmBitmapSize - (trimmed s).mmBitmapUsed) - 1
        else 8 * ((trimmed s).mmBitmapSize - (trimmed s).mmBitmapUsed)) with
      | none => (0, trimmed s)
      | some f => (f * 0x1000, { trimmed s with
            mmBitmap := update s.mmBitmap (f >>> 3)
              (s.mmBitmap (f >>> 3) ||| (1#8 <<< (f &&& 7))) }) := by
    rw [← hpf]
    simp [mmAllocPage, hready, trimmed]
  rw [hdef]
  cases hfind : findPage s.mmBitmap _ with
  | none =>
    refine ⟨ht, .inl ⟨rfl, taken_nothing rfl rfl rfl, fun f hf => ?_⟩⟩
    have hlt := htop f hf
    have hused := findPage_none hfind f hf.frame_pos (by split <;> omega)
    rw [hf.free f le_rfl (by omega)] at hused
    cases hused
  | some f =>
    obtain ⟨hpos, hle', hfree⟩ := findPage_some hfind
    have hset : ∀ g, frameUsed (update s.mmBitmap (f >>> 3)
        (s.mmBitmap (f >>> 3) ||| (1#8 <<< (f &&& 7)))) g
        = (frameUsed s.mmBitmap g || decide (f ≤ g ∧ g < f + 1)) := by
      intro g
      obtain ⟨hb, heq⟩ := start_position f
      rw [frameUsed_update_set _ hb, heq]
      congr 2
      rw [eq_iff_iff]
      omega
    have hbelow : f < 8 * s.mmBitmapSize := by
      have : (trimmed s).mmBitmapSize = s.mmBitmapSize := rfl
      split at hle' <;> omega
    refine ⟨ht.set (byte_full_of_used fun g hg => ?_), .inr ⟨f, rfl, ?_, ?_⟩⟩
    · rw [hset]
      simp [show frameUsed s.mmBitmap g = true from hg]
    · refine ⟨by omega, hpos, Nat.one_dvd f, hbelow, hbelow, fun g h1 h2 => ?_⟩
      rwa [show g = f by omega]
    · exact ⟨rfl, rfl, hset⟩

theorem frameLimit_aligned (hsize : 0x400 ∣ 8 * s.mmBitmapSize) (type : MmType)
    (hn : mmGetCount order = n) (hpos : 0 < n) : n ∣ frameLimit s type ∨ frameLimit s type < n := by
  rcases mmGetCount_cases order with h0 | ⟨k, hk, hpow⟩
  · omega
  rw [← hn, hpow]
  have hpower : ∀ m, k ≤ m → 2 ^ k ∣ 2 ^ m := fun m h => pow_dvd_pow 2 h
  cases type with
  | normal => exact .inl (Dvd.dvd.trans (hpower 10 hk) hsize)
  | addr36 => exact .inl (hpower 24 (by omega))
  | addr32 => exact .inl (hpower 20 (by omega))
  | addr28 | kernel => exact .inl (hpower 16 (by omega))
  | addr24 => exact .inl (hpower 12 (by omega))
  | other => exact .inl (Nat.dvd_zero _)
  | addr20 =>
    rcases lt_or_ge 8 k with h | h
    · refine .inr ?_
      calc frameLimit s .addr20 = 2 ^ 8 := rfl
        _ < 2 ^ k := Nat.pow_lt_pow_right (by omega) h
    · exact .inl (hpower 8 h)

theorem block_end_le {n f l : Nat} (hf : n ∣ f) (hl : n ∣ l) (h : f < l) : f + n ≤ l := by
  obtain ⟨a, rfl⟩ := hf
  obtain ⟨b, rfl⟩ := hl
  have hab : a + 1 ≤ b := Nat.lt_of_mul_lt_mul_left h
  have := Nat.mul_le_mul_left n hab
  omega

theorem mmAllocPages_spec (hready : s.mmReady = true) (h : HintCovers s)
    (hsize : 0x400 ∣ 8 * s.mmBitmapSize) (type : MmType) (hn : mmGetCount order ≠ 0) :
    Allocates s type (mmGetCount order) (mmAllocPages s type order) := by
  obtain ⟨ht, hpf⟩ := trimmed_spec h
  have hsame : (trimmed s).mmBitmapSize = s.mmBitmapSize := rfl
  have hdvdSize := Dvd.dvd.trans (mmGetCount_dvd hn) hsize
  have hpos : 0 < mmGetCount order := Nat.pos_of_ne_zero hn
  obtain ⟨n, hcount⟩ : ∃ n, n = mmGetCount order := ⟨_, rfl⟩
  rw [← hcount] at hn hdvdSize hpos ⊢
  obtain ⟨c, hc⟩ : ∃ c, c = clampFrame type
      (8 * ((trimmed s).mmBitmapSize - (trimmed s).mmBitmapUsed)) := ⟨_, rfl⟩
  obtain ⟨pf, hpfdef⟩ : ∃ pf, pf = if c ≠ 0 then (c - 1) - (c - 1) % n else c := ⟨_, rfl⟩
  have hdef : mmAllocPages s type order = match findPages s.mmBitmap n pf pf with
      | none => (0, trimmed s)
      | some f => (f * 0x1000, { trimmed s with mmBitmap := mmBitmapSet s.mmBitmap f n }) := by
    rw [hpfdef, hc, ← hpf]
    simp [mmAllocPages, hready, trimmed, ← hcount, hn]
  have hpfdvd : n ∣ pf := by
    rw [hpfdef]
    split
    · exact Nat.dvd_sub_mod (c - 1)
    · rename_i h0
      rw [not_not] at h0
      rw [h0]
      simp
  -- every suitable block starts at or below the first candidate
  have htop : ∀ f, Suitable s type n f → f ≤ pf := by
    intro f hf
    rcases le_or_gt (f + n)
      (8 * ((trimmed s).mmBitmapSize - (trimmed s).mmBitmapUsed)) with hin | hout
    · have hfc : f + n ≤ c := by
        rw [hc]
        exact le_clampFrame (trimmed s) type hf.below hin
      rw [hpfdef, if_pos (by omega)]
      obtain ⟨a, ha⟩ := hf.aligned
      have hdiv : a ≤ (c - 1) / n := by
        rw [Nat.le_div_iff_mul_le hpos, mul_comm, ← ha]
        omega
      have hmod := Nat.div_add_mod (c - 1) n
      have hmul := Nat.mul_le_mul_left n hdiv
      omega
    · -- the last frame of the block lies in the used suffix
      have hused := ht.frameUsed (f := f + n - 1) (by omega)
        (by have := hf.inside; omega)
      have hfree := hf.free (f + n - 1) (by omega) (by omega)
      rw [show (trimmed s).mmBitmap = s.mmBitmap from rfl, hfree] at hused
      cases hused
  rw [hdef]
  cases hfind : findPages s.mmBitmap n pf pf with
  | none =>
    refine ⟨ht, .inl ⟨rfl, taken_nothing rfl rfl rfl, fun f hf => ?_⟩⟩
    exact findPages_none hpos le_rfl hpfdvd hfind f hf.frame_pos (htop f hf)
      hf.aligned hf.free
  | some f =>
    obtain ⟨hfpos, hfle, hfdvd, hfree⟩ := findPages_some hpfdvd hfind
    have hused := fun g => frameUsed_mmBitmapSet s.mmBitmap f n g
    have hfc : f < c := by
      rw [hpfdef] at hfle
      split at hfle <;> omega
    have hclimit : c ≤ frameLimit s type := by
      rw [hc]
      exact clampFrame_le_limit (trimmed s) type (by omega)
    have hcsize : c ≤ 8 * s.mmBitmapSize := by
      have := clampFrame_le type
        (8 * ((trimmed s).mmBitmapSize - (trimmed s).mmBitmapUsed))
      omega
    have hbelow : f + n ≤ frameLimit s type := by
      rcases frameLimit_aligned hsize type hcount.symm hpos with hd | hlt
      · exact block_end_le hfdvd hd (by omega)
      · exact absurd (Nat.le_of_dvd hfpos hfdvd) (by omega)
    refine ⟨ht.set (byte_full_of_used fun g hg => ?_), .inr ⟨f, rfl, ?_, ?_⟩⟩
    · rw [hused]
      simp [show frameUsed s.mmBitmap g = true from hg]
    · exact ⟨hpos, hfpos, hfdvd, hbelow, block_end_le hfdvd hdvdSize (by omega), hfree⟩
    · exact ⟨rfl, rfl, hused⟩

/-- Lowering the hint below every byte that is not full keeps it valid. -/
theorem lowerUsed_hint {bm : Bitmap} (h : HintCovers s) (hi : i < s.mmBitmapSize)
    (hbm : ∀ j, i < j → bm j = s.mmBitmap j) :
    HintCovers (lowerUsed { s with mmBitmap := bm } i) := by
  have hle := h.le_size
  rw [lowerUsed]
  simp only
  split
  · refine ⟨by simp only; omega, fun j h1 h2 => ?_⟩
    simp only at h1 h2
    exact (hbm j (by omega)).trans (h.full j (by omega) h2)
  · refine ⟨hle, fun j h1 h2 => ?_⟩
    simp only at h1 h2
    exact (hbm j (by omega)).trans (h.full j h1 h2)

@[simp] theorem lowerUsed_mmReady (s : MmState) (i : Nat) :
    (lowerUsed s i).mmReady = s.mmReady := by
  simp only [lowerUsed]; split <;> rfl

@[simp] theorem lowerUsed_mmBitmapSize (s : MmState) (i : Nat) :
    (lowerUsed s i).mmBitmapSize = s.mmBitmapSize := by
  simp only [lowerUsed]; split <;> rfl

@[simp] theorem lowerUsed_mmBitmap (s : MmState) (i : Nat) :
    (lowerUsed s i).mmBitmap = s.mmBitmap := by
  simp only [lowerUsed]; split <;> rfl

theorem shiftRight_page (f : Nat) : (f * 0x1000) >>> 12 = f := by
  omega

theorem mmBitmapClear_above {f n j : Nat} (hj : (f + (n - 1)) / 8 < j) (hn : 0 < n) :
    mmBitmapClear bm f n j = bm j := by
  apply BitVec.eq_of_getLsbD_eq
  intro k hk
  have h := frameUsed_mmBitmapClear bm f n (8 * j + k)
  simp only [frameUsed, show (8 * j + k) / 8 = j by omega, show (8 * j + k) % 8 = k by omega] at h
  rw [h, decide_eq_false (by omega)]
  simp

theorem mmFreePage_spec (hready : s.mmReady = true) (h : HintCovers s) (hpos : 0 < f)
    (hin : f < 8 * s.mmBitmapSize) :
    HintCovers (mmFreePage s (f * 0x1000)) ∧ Released s (mmFreePage s (f * 0x1000)) f 1 := by
  have hne : f ≠ 0 := by omega
  have hi : f / 8 < s.mmBitmapSize := by omega
  obtain ⟨hb, heq⟩ := start_position f
  have hdef : mmFreePage s (f * 0x1000) = lowerUsed
      { s with
        mmBitmap := update s.mmBitmap (f >>> 3)
          (s.mmBitmap (f >>> 3) &&& ~~~(1#8 <<< (f &&& 7))) } (f / 8) := by
    simp only [mmFreePage, shiftRight_page, hready, shiftRight_three]
    simp [hne, hi]
  rw [hdef]
  refine ⟨lowerUsed_hint h hi fun j hj => ?_, by simp, by simp, fun g => ?_⟩
  · rw [shiftRight_three, Function.update_of_ne (by omega)]
  · rw [lowerUsed_mmBitmap, frameUsed_update_clear _ hb, heq]
    congr 3
    rw [eq_iff_iff]
    omega

theorem mmFreePages_spec (hready : s.mmReady = true) (h : HintCovers s) (hn : mmGetCount order ≠ 0)
    (hpos : 0 < f) (hdvd : mmGetCount order ∣ f) (hin : f + mmGetCount order ≤ 8 * s.mmBitmapSize) :
    HintCovers (mmFreePages s (f * 0x1000) order) ∧
      Released s (mmFreePages s (f * 0x1000) order) f (mmGetCount order) := by
  have hne : f ≠ 0 := by omega
  have hi : (f + (mmGetCount order - 1)) / 8 < s.mmBitmapSize := by omega
  have hdef : mmFreePages s (f * 0x1000) order = lowerUsed
      { s with mmBitmap := mmBitmapClear s.mmBitmap f (mmGetCount order) }
      ((f + (mmGetCount order - 1)) / 8) := by
    simp only [mmFreePages, shiftRight_page, hready]
    simp [hn, hne, Nat.mod_eq_zero_of_dvd hdvd, hi]
  rw [hdef]
  refine ⟨lowerUsed_hint h hi fun j hj => mmBitmapClear_above _ hj (Nat.pos_of_ne_zero hn),
    by simp, by simp, fun g => ?_⟩
  rw [lowerUsed_mmBitmap]
  exact frameUsed_mmBitmapClear _ _ _ _

/-! ## Frame ownership over whole runs -/

/-- A live allocation: `count` frames from `frame`, of the given type. -/
structure Block where
  type : MmType
  (frame count : Nat)
  deriving DecidableEq

def Block.Has (b : Block) (f : Nat) : Prop := b.frame ≤ f ∧ f < b.frame + b.count

/-- The allocator and the blocks its callers hold. -/
structure Frames where
  mm : MmState
  live : List Block

/-- The four calls. -/
inductive FrameOp where
  | allocPage
  | allocPages (type : MmType) (order : Int)
  | freePage (addr : Nat)
  | freePages (addr : Nat) (order : Int)

/-- A returned address, when it is not `0`, is a new live block. -/
def hold (type : MmType) (count addr : Nat) (live : List Block) : List Block :=
  if addr = 0 then live else ⟨type, addr / 0x1000, count⟩ :: live

/-- One call. The two free calls take a block that is live, by the
address it was returned under. -/
inductive FrameStep : Frames → FrameOp → Frames → Prop where
  | allocPage (s : Frames) :
      FrameStep s .allocPage
        ⟨(mmAllocPage s.mm).2, hold .normal 1 (mmAllocPage s.mm).1 s.live⟩
  | allocPages (s : Frames) (type : MmType) (order : Int) :
      FrameStep s (.allocPages type order)
        ⟨(mmAllocPages s.mm type order).2,
          hold type (mmGetCount order) (mmAllocPages s.mm type order).1 s.live⟩
  | freePage (s : Frames) (type : MmType) (frame : Nat) :
      ⟨type, frame, 1⟩ ∈ s.live →
      FrameStep s (.freePage (frame * 0x1000))
        ⟨mmFreePage s.mm (frame * 0x1000), s.live.erase ⟨type, frame, 1⟩⟩
  | freePages (s : Frames) (type : MmType) (frame : Nat) (order : Int) :
      ⟨type, frame, mmGetCount order⟩ ∈ s.live →
      FrameStep s (.freePages (frame * 0x1000) order)
        ⟨mmFreePages s.mm (frame * 0x1000) order, s.live.erase ⟨type, frame, mmGetCount order⟩⟩

def Exclusive (live : List Block) : Prop :=
  live.Pairwise fun a b => ∀ f, ¬ (a.Has f ∧ b.Has f)

/-- A block is aligned to its size and lies below the limit of its type
and inside the bitmap. -/
structure Block.Placed (s : MmState) (b : Block) : Prop where
  pos : 0 < b.count
  frame_pos : 0 < b.frame
  aligned : b.count ∣ b.frame
  below : b.frame + b.count ≤ frameLimit s b.type
  inside : b.frame + b.count ≤ 8 * s.mmBitmapSize

/-- `mm_init` leaves a bitmap of whole pages and no hint. -/
structure Booted (s : MmState) : Prop where
  ready : s.mmReady = true
  whole_pages : 0x1000 ∣ s.mmBitmapSize
  no_hint : s.mmBitmapUsed = 0

/-- What a run keeps; `boot` is the bitmap that `mm_init` left. -/
structure FrameInv (boot : Bitmap) (s : Frames) : Prop where
  ready : s.mm.mmReady = true
  whole_pages : 0x1000 ∣ s.mm.mmBitmapSize
  hint : HintCovers s.mm
  exclusive : Exclusive s.live
  placed : ∀ b ∈ s.live, b.Placed s.mm
  fresh : ∀ b ∈ s.live, ∀ f, b.Has f → frameUsed boot f = false
  used_iff : ∀ f, frameUsed s.mm.mmBitmap f = true ↔
    frameUsed boot f = true ∨ ∃ b ∈ s.live, b.Has f

variable {boot : Bitmap}

theorem FrameInv.used {s : Frames} (h : FrameInv boot s) {b : Block} (hb : b ∈ s.live)
    (hf : b.Has f) : frameUsed s.mm.mmBitmap f = true :=
  (h.used_iff f).mpr (.inr ⟨b, hb, hf⟩)

theorem FrameInv.initial {mm : MmState} (h : Booted mm) :
    FrameInv mm.mmBitmap ⟨mm, []⟩ where
  ready := h.ready
  whole_pages := h.whole_pages
  hint := by
    refine ⟨by rw [h.no_hint]; omega, fun i h1 h2 => ?_⟩
    have h3 : mm.mmBitmapSize - mm.mmBitmapUsed ≤ i := h1
    have h4 : i < mm.mmBitmapSize := h2
    rw [h.no_hint] at h3
    omega
  exclusive := List.Pairwise.nil
  placed := fun b hb => by simp at hb
  fresh := fun b hb => by simp at hb
  used_iff := by simp

theorem FrameInv.dvd {s : Frames} (h : FrameInv boot s) : 0x400 ∣ 8 * s.mm.mmBitmapSize :=
  Dvd.dvd.trans (Dvd.dvd.trans (by decide) h.whole_pages) (Nat.dvd_mul_left _ 8)

theorem Block.Placed.congr {s s' : MmState} {b : Block}
    (hsize : s'.mmBitmapSize = s.mmBitmapSize) (h : b.Placed s) : b.Placed s' where
  pos := h.pos
  frame_pos := h.frame_pos
  aligned := h.aligned
  inside := hsize ▸ h.inside
  below := by
    have hb := h.below
    cases htype : b.type <;> rw [htype] at hb <;> simp only [frameLimit] at hb ⊢ <;> omega

theorem FrameInv.alloc {s : Frames} (h : FrameInv boot s) {type : MmType} {r : Nat × MmState}
    (hr : Allocates s.mm type n r) : FrameInv boot ⟨r.2, hold type n r.1 s.live⟩ := by
  rcases hr.outcome with ⟨h0, htaken, -⟩ | ⟨f, hf, hsuit, htaken⟩
  · rw [hold, if_pos h0]
    refine ⟨htaken.ready.trans h.ready, htaken.size ▸ h.whole_pages, hr.hint,
      h.exclusive, fun b hb => (h.placed b hb).congr htaken.size, h.fresh, fun g => ?_⟩
    have hsame : frameUsed r.2.mmBitmap g = frameUsed s.mm.mmBitmap g := by
      simp [htaken.used]
    rw [hsame]
    exact h.used_iff g
  have hne : r.1 ≠ 0 := by
    have := hsuit.frame_pos
    omega
  have hframe : r.1 / 0x1000 = f := by omega
  rw [hold, if_neg hne, hframe]
  refine ⟨htaken.ready.trans h.ready, htaken.size ▸ h.whole_pages, hr.hint, ?_, ?_, ?_, ?_⟩
  · -- a live block has used frames, the new one had free frames
    refine pairwise_cons.mpr ⟨fun b hb g ⟨hnew, hold⟩ => ?_, h.exclusive⟩
    have hfree := hsuit.free g hnew.1 hnew.2
    rw [h.used hb hold] at hfree
    cases hfree
  · intro b hb
    rcases mem_cons.mp hb with rfl | hb
    · have hnew : Block.Placed s.mm ⟨type, f, n⟩ :=
        ⟨hsuit.pos, hsuit.frame_pos, hsuit.aligned, hsuit.below, hsuit.inside⟩
      exact hnew.congr htaken.size
    · exact (h.placed b hb).congr htaken.size
  · intro b hb g hg
    rcases mem_cons.mp hb with rfl | hb
    · -- a frame in use at boot would be in use now
      by_contra hboot
      have hg_used := (h.used_iff g).mpr (.inl (by simpa using hboot))
      rw [hsuit.free g hg.1 hg.2] at hg_used
      cases hg_used
    · exact h.fresh b hb g hg
  · intro g
    simp only [htaken.used, Bool.or_eq_true, h.used_iff, decide_eq_true_eq, mem_cons,
      exists_eq_or_imp]
    exact or_right_comm.trans or_assoc

theorem FrameInv.free {s : Frames} (h : FrameInv boot s) {b : Block} (hb : b ∈ s.live)
    {mm : MmState} (hhint : HintCovers mm) (hrel : Released s.mm mm b.frame b.count) :
    FrameInv boot ⟨mm, s.live.erase b⟩ := by
  have hsub : ∀ c ∈ s.live.erase b, c ∈ s.live := fun c hc => mem_of_mem_erase hc
  refine ⟨hrel.ready.trans h.ready, hrel.size ▸ h.whole_pages, hhint,
    h.exclusive.sublist erase_sublist,
    fun c hc => (h.placed c (hsub c hc)).congr hrel.size,
    fun c hc => h.fresh c (hsub c hc), fun g => ?_⟩
  -- the blocks that stay live share no frame with the one given back
  have hperm : (b :: s.live.erase b).Pairwise fun a c => ∀ f, ¬ (a.Has f ∧ c.Has f) :=
    (perm_cons_erase hb).pairwise h.exclusive
      (fun {_ _} hac f ⟨h1, h2⟩ => hac f ⟨h2, h1⟩)
  have hno : ∀ c ∈ s.live.erase b, c.Has g → ¬ b.Has g :=
    fun c hc hcg hbg => (pairwise_cons.mp hperm).1 c hc g ⟨hbg, hcg⟩
  have hlive : (∃ c ∈ s.live, c.Has g) ↔ b.Has g ∨ ∃ c ∈ s.live.erase b, c.Has g := by
    simp only [(perm_cons_erase hb).mem_iff, mem_cons, exists_eq_or_imp]
  have hboot := h.fresh b hb g
  simp only [hrel.used, Bool.and_eq_true, h.used_iff, hlive, Bool.not_eq_true',
    decide_eq_false_iff_not]
  constructor
  · rintro ⟨hg | hg | hg, hbg⟩
    · exact .inl hg
    · exact absurd hg hbg
    · exact .inr hg
  · rintro (hg | ⟨c, hc, hcg⟩)
    · refine ⟨.inl hg, fun hbg => ?_⟩
      rw [hboot hbg] at hg
      cases hg
    · exact ⟨.inr (.inr ⟨c, hc, hcg⟩), hno c hc hcg⟩

theorem FrameInv.step {s s' : Frames} {op : FrameOp} (h : FrameInv boot s)
    (hstep : FrameStep s op s') : FrameInv boot s' := by
  cases hstep with
  | allocPage => exact h.alloc (mmAllocPage_spec h.ready h.hint)
  | allocPages type order =>
    by_cases hn : mmGetCount order = 0
    · -- an order outside the table: the call returns at once
      have hdef : mmAllocPages s.mm type order = (0, s.mm) := by
        simp [mmAllocPages, hn]
      rwa [hdef]
    · exact h.alloc (mmAllocPages_spec h.ready h.hint h.dvd type hn)
  | freePage type frame hb =>
    have hp := h.placed _ hb
    obtain ⟨hhint, hrel⟩ := mmFreePage_spec h.ready h.hint hp.frame_pos hp.inside
    exact h.free hb hhint hrel
  | freePages type frame order hb =>
    have hp := h.placed _ hb
    obtain ⟨hhint, hrel⟩ := mmFreePages_spec h.ready h.hint
      (Nat.pos_iff_ne_zero.mp hp.pos) hp.frame_pos hp.aligned hp.inside
    exact h.free hb hhint hrel

theorem FrameInv.run {s s' : Frames} {ops : List FrameOp}
    (hrun : Run FrameStep s ops s') (h : FrameInv boot s) : FrameInv boot s' :=
  hrun.invariant (fun _ _ _ hinv hs => FrameInv.step hinv hs) h

/-- What an allocation call answers in a state: a block that was
suitable, or `0` when there is none. -/
def Answers (s : MmState) (type : MmType) (n addr : Nat) : Prop :=
  (addr = 0 ∧ ∀ f, ¬ Suitable s type n f) ∨ ∃ f, addr = f * 0x1000 ∧ Suitable s type n f

theorem Allocates.answers {type : MmType} {r : Nat × MmState} (h : Allocates s type n r) :
    Answers s type n r.1 := by
  rcases h.outcome with ⟨h0, -, hno⟩ | ⟨f, hf, hsuit, -⟩
  · exact .inl ⟨h0, hno⟩
  · exact .inr ⟨f, hf, hsuit⟩

/-- **Frame ownership.** After any run from the state `mm_init` leaves:
live blocks share no frame, each is aligned to its size and below the
limit of its type, a bit is set exactly if it was set at boot or its
frame is part of a live block, the hint describes a used suffix, and
either allocation call answers with a suitable free block or, when it
answers `0`, none exists. -/
theorem frames_of_run {mm : MmState} (hboot : Booted mm) {ops : List FrameOp} {s : Frames}
    (hrun : Run FrameStep ⟨mm, []⟩ ops s) :
    Exclusive s.live ∧ (∀ b ∈ s.live, b.Placed s.mm) ∧
      (∀ b ∈ s.live, ∀ f, b.Has f → frameUsed mm.mmBitmap f = false) ∧
      (∀ f, frameUsed s.mm.mmBitmap f = true ↔
        frameUsed mm.mmBitmap f = true ∨ ∃ b ∈ s.live, b.Has f) ∧
      HintCovers s.mm ∧
      Answers s.mm .normal 1 (mmAllocPage s.mm).1 ∧
      ∀ type order, Answers s.mm type (mmGetCount order) (mmAllocPages s.mm type order).1 := by
  have h := FrameInv.run hrun (FrameInv.initial hboot)
  refine ⟨h.exclusive, h.placed, h.fresh, h.used_iff, h.hint, (mmAllocPage_spec h.ready h.hint).answers,
    fun type order => ?_⟩
  by_cases hn : mmGetCount order = 0
  · refine .inl ⟨by simp [mmAllocPages, hn], fun f hf => ?_⟩
    exact absurd hf.pos (by omega)
  · exact (mmAllocPages_spec h.ready h.hint h.dvd type hn).answers

/-- A bitmap with a single free frame, number `41`. -/
def oneFreeFrame : MmState :=
  ⟨true, 0x2000, 0, fun i => if i = 5 then 0xFD#8 else 0xFF#8⟩

theorem oneFreeFrame_booted : Booted oneFreeFrame := ⟨rfl, ⟨2, rfl⟩, rfl⟩

theorem oneFreeFrame_free (f : Nat) : frameUsed oneFreeFrame.mmBitmap f = false ↔ f = 41 := by
  have hall : ∀ k < 8, ((0xFD#8).getLsbD k = false ↔ k = 1) := by decide
  by_cases h : f / 8 = 5
  · have hk := hall (f % 8) (by omega)
    rw [show frameUsed oneFreeFrame.mmBitmap f = (0xFD#8).getLsbD (f % 8) by
      simp [frameUsed, oneFreeFrame, h], hk]
    omega
  · have hused := @frameUsed_of_byte f oneFreeFrame.mmBitmap (by simp [oneFreeFrame, h])
    constructor
    · intro hfree
      rw [hused] at hfree
      cases hfree
    · omega

theorem mmAllocPage_oneFreeFrame : (mmAllocPage oneFreeFrame).1 = 41 * 0x1000 := by
  have h := FrameInv.initial oneFreeFrame_booted
  rcases (mmAllocPage_spec h.ready h.hint).answers with ⟨-, hno⟩ | ⟨f, hf, hsuit⟩
  · refine absurd ⟨by decide, by decide, by decide, by decide, by decide, fun g h1 h2 => ?_⟩
      (hno 41)
    exact (oneFreeFrame_free g).mpr (by omega)
  · rw [hf, (oneFreeFrame_free f).mp (hsuit.free f le_rfl (by omega))]

/-- The allocator after one `mm_alloc_page`, which takes frame `41`. -/
def oneFreeFrameTaken : Frames :=
  ⟨(mmAllocPage oneFreeFrame).2, [⟨.normal, 41, 1⟩]⟩

/-- The allocator after the frame was given back. -/
def oneFreeFrameFreed : Frames :=
  ⟨mmFreePage oneFreeFrameTaken.mm (41 * 0x1000), []⟩

theorem frames_of_run_oneFreeFrame :
    (∀ f, frameUsed oneFreeFrameTaken.mm.mmBitmap f = true ↔
      frameUsed oneFreeFrame.mmBitmap f = true ∨ f = 41) ∧
      (∀ f, frameUsed oneFreeFrameFreed.mm.mmBitmap f = true ↔
        frameUsed oneFreeFrame.mmBitmap f = true) ∧
      HintCovers oneFreeFrameFreed.mm := by
  have htake : FrameStep ⟨oneFreeFrame, []⟩ .allocPage oneFreeFrameTaken := by
    have hstep := FrameStep.allocPage ⟨oneFreeFrame, []⟩
    rwa [mmAllocPage_oneFreeFrame] at hstep
  have hfree : FrameStep oneFreeFrameTaken (.freePage (41 * 0x1000)) oneFreeFrameFreed :=
    FrameStep.freePage oneFreeFrameTaken .normal 41 (by simp [oneFreeFrameTaken])
  obtain ⟨-, -, -, htaken, -⟩ := frames_of_run oneFreeFrame_booted (Run.single htake)
  obtain ⟨-, -, -, hfreed, hhint, -⟩ :=
    frames_of_run oneFreeFrame_booted ((Run.single htake).snoc hfree)
  refine ⟨fun f => (htaken f).trans ?_, fun f => (hfreed f).trans ?_, hhint⟩
  · have hframe : 41 ≤ f ∧ f < 41 + 1 ↔ f = 41 := by omega
    simp [oneFreeFrameTaken, Block.Has, hframe]
  · simp [oneFreeFrameFreed]

end Dancy.Mm
