import Mathlib.Tactic.Common

/-!
# The framebuffer device

`fb_user.c` mounts the standard framebuffer as a node of 4-byte pixels.
A copy that reaches a pixel outside one of its two buffers is `none`.
-/

namespace Dancy.Fb

open Function Option

abbrev Pixels := Nat → UInt32

def intMax : Nat := 0x7FFFFFFF

def overflowLimit : Nat := 0x10000000

/-- `fb_user_size` and `fb_user_struct`. -/
structure FbUser where
  (size w h : Nat)
  fits : 4 * (h * w) ≤ size
  whole : size % 4 = 0

/-- The variables that `fb_user_init` leaves behind a mounted node. -/
def fbUserInit (fbWidth fbHeight fbStandardSize : Nat) : Option FbUser :=
  if 4 * fbWidth * fbHeight ≤ intMax ∧ 4 * fbWidth * fbHeight ≠ 0 ∧ fbStandardSize ≠ 0 ∧
      ((4 * fbWidth * fbHeight : Nat) : Int) ≤ (BitVec.ofNat 32 fbStandardSize).toInt then
    some {
      size := 4 * fbWidth * fbHeight
      w := fbWidth % 0x10000
      h := fbHeight % 0x10000
      fits := by
        have := Nat.mul_le_mul (Nat.mod_le fbHeight 0x10000) (Nat.mod_le fbWidth 0x10000)
        rw [Nat.mul_assoc, Nat.mul_comm fbWidth]
        omega
      whole := by rw [Nat.mul_assoc, Nat.mul_mod_right] }
  else none

inductive Code
  | ok
  | alignment
  | readOnly
  | access

/-- The inner loops: `n` pixels from `s` on to `d` on, with the sizes of the
two buffers in bytes. -/
def copyPixels (dstSize srcSize : Nat) (src : Pixels) :
    Nat → Nat → Nat → Pixels → Option Pixels
  | _, _, 0, dst => some dst
  | d, s, n + 1, dst =>
    if 4 * d + 4 ≤ dstSize ∧ 4 * s + 4 ≤ srcSize then
      copyPixels dstSize srcSize src (d + 1) (s + 1) n
        (if dst d ≠ src s then update dst d (src s) else dst)
    else none

/-- The rows of `fb_update`, which begin `width` pixels apart in both buffers. -/
def copyRows (size width w : Nat) (src : Pixels) : Nat → Nat → Pixels → Option Pixels
  | _, 0, fb => some fb
  | d, h + 1, fb =>
    (copyPixels size size src d d w fb).bind (copyRows size width w src (d + width) h)

theorem copyPixels_spec {dstSize srcSize : Nat} {src : Pixels} : ∀ {n d s : Nat} {dst : Pixels},
    4 * (d + n) ≤ dstSize → 4 * (s + n) ≤ srcSize →
    copyPixels dstSize srcSize src d s n dst =
      some fun p => if d ≤ p ∧ p < d + n then src (s + (p - d)) else dst p := by
  intro n
  induction n with
  | zero =>
    intro d s dst _ _
    simp only [copyPixels, some.injEq]
    funext p
    rw [if_neg (by omega)]
  | succ n ih =>
    intro d s dst hd hs
    have hstore : (if dst d ≠ src s then update dst d (src s) else dst) =
        update dst d (src s) := by
      split
      · rfl
      · rename_i heq
        rw [not_not.mp heq |>.symm, update_eq_self]
    rw [copyPixels, if_pos (by omega), hstore, ih (by omega) (by omega), some.injEq]
    funext p
    by_cases hp : p = d
    · rw [hp, if_neg (by omega), if_pos (by omega), update_self, Nat.sub_self, Nat.add_zero]
    · rw [update_of_ne hp]
      by_cases hin : d + 1 ≤ p ∧ p < d + 1 + n
      · rw [if_pos hin, if_pos (by omega), show s + 1 + (p - (d + 1)) = s + (p - d) by omega]
      · rw [if_neg hin, if_neg (by omega)]

theorem copyRows_spec {size width w : Nat} {src : Pixels} : ∀ {h d : Nat} {fb : Pixels},
    4 * (d + h * width) ≤ size + 4 * (width - w) → w ≤ width →
    ∃ fb', copyRows size width w src d h fb = some fb' ∧
      ∀ p, ((∃ i < h, d + i * width ≤ p ∧ p < d + i * width + w) → fb' p = src p) ∧
        ((¬∃ i < h, d + i * width ≤ p ∧ p < d + i * width + w) → fb' p = fb p) := by
  intro h
  induction h with
  | zero => exact fun _ _ => ⟨_, rfl, fun p => ⟨fun ⟨_, hi, _⟩ => absurd hi (Nat.not_lt_zero _),
      fun _ => rfl⟩⟩
  | succ h ih =>
    intro d fb hsize hw
    have hmul : (h + 1) * width = h * width + width := Nat.succ_mul h width
    have hrow : 4 * (d + w) ≤ size := by omega
    obtain ⟨fb', hrun, hfb'⟩ := ih (d := d + width) (by omega) hw
    refine ⟨fb', by rw [copyRows, copyPixels_spec hrow hrow]; exact hrun, fun p => ?_⟩
    have hstep : ∀ i, d + width + i * width = d + (i + 1) * width := by
      intro i
      rw [Nat.succ_mul]
      omega
    simp only [hstep] at hfb'
    by_cases hlater : ∃ i < h, d + (i + 1) * width ≤ p ∧ p < d + (i + 1) * width + w
    · obtain ⟨i, hi, hp⟩ := hlater
      exact ⟨fun _ => (hfb' p).1 ⟨i, hi, hp⟩, fun hno => absurd ⟨i + 1, by omega, hp⟩ hno⟩
    rw [(hfb' p).2 hlater]
    by_cases hfirst : d ≤ p ∧ p < d + w
    · rw [if_pos hfirst, show d + (p - d) = p by omega]
      exact ⟨fun _ => rfl, fun hno => absurd ⟨0, by omega, by simpa using hfirst⟩ hno⟩
    rw [if_neg hfirst]
    refine ⟨fun ⟨i, hi, hp⟩ => ?_, fun _ => rfl⟩
    cases i with
    | zero => omega
    | succ i => exact absurd ⟨i, by omega, hp⟩ hlater

/-- A row of a rectangle holds the pixels with the coordinates of the rectangle. -/
theorem rows_iff {width x y w h p : Nat} (hw : x + w ≤ width) :
    (∃ i < h, y * width + x + i * width ≤ p ∧ p < y * width + x + i * width + w) ↔
      (y ≤ p / width ∧ p / width < y + h) ∧ x ≤ p % width ∧ p % width < x + w := by
  have hp := Nat.div_add_mod p width
  have hmod : 0 < width → p % width < width := Nat.mod_lt p
  constructor
  · rintro ⟨i, hi, hlo, hhi⟩
    have hat : y * width + x + i * width = (y + i) * width + x := by
      rw [Nat.add_mul]
      omega
    obtain ⟨hdiv, hrem⟩ := (Nat.div_mod_unique (b := width) (a := p) (d := y + i)
      (c := p - (y + i) * width) (by omega)).mpr ⟨by rw [Nat.mul_comm width]; omega, by omega⟩
    omega
  · rintro ⟨⟨hy, hh⟩, hx, hxw⟩
    refine ⟨p / width - y, by omega, ?_⟩
    have hat : y * width + (p / width - y) * width = width * (p / width) := by
      rw [← Nat.add_mul, Nat.mul_comm, Nat.add_sub_cancel' hy]
    omega

/-- `fb_update` for the rectangle of its argument; `graphics` is
`console_switch_data == 0x107`. -/
def fbUpdate (d : FbUser) (graphics : Bool) (x y w h : Nat) (s fb : Pixels) :
    Option (Code × Pixels) :=
  if x ≥ d.w ∨ y ≥ d.h then some (.ok, fb)
  else
    let w := if w < d.w then w else d.w
    let h := if h < d.h then h else d.h
    if w = 0 ∨ h = 0 then some (.ok, fb)
    else
      let w := if x + w > d.w then d.w - x else w
      let h := if y + h > d.h then d.h - y else h
      if !graphics then some (.readOnly, fb)
      else (copyRows d.size d.w w s (y * d.w + x) h fb).map fun fb => (.ok, fb)

/-- `n_ioctl` with `FB_UPDATE`: the user buffer is checked for `fb_user_size` bytes. -/
def nIoctlUpdate (d : FbUser) (aligned readable graphics : Bool) (x y w h : Nat) (s fb : Pixels) :
    Option (Code × Pixels) :=
  if !aligned then some (.access, fb)
  else if !readable then some (.access, fb)
  else fbUpdate d graphics x y w h s fb

/-- `transfer_size` once `n_read` or `n_write` has clipped it. -/
def transferSize (d : FbUser) (offset size : Nat) : Nat :=
  let size := if size > overflowLimit then overflowLimit else size
  if size > d.size - offset then d.size - offset else size

def nRead (d : FbUser) (offset size : Nat) (fb buffer : Pixels) :
    Option (Code × Nat × Pixels) :=
  if offset % 4 ≠ 0 ∨ size % 4 ≠ 0 then some (.alignment, 0, buffer)
  else if offset ≥ d.size ∨ size = 0 then some (.ok, 0, buffer)
  else
    let n := transferSize d offset size
    (copyPixels size d.size fb 0 (offset / 4) (n / 4) buffer).map fun buffer => (.ok, n, buffer)

def nWrite (d : FbUser) (graphics : Bool) (offset size : Nat) (buffer fb : Pixels) :
    Option (Code × Nat × Pixels) :=
  if offset % 4 ≠ 0 ∨ size % 4 ≠ 0 then some (.alignment, 0, fb)
  else if offset ≥ d.size ∨ size = 0 then some (.ok, 0, fb)
  else
    let n := transferSize d offset size
    if !graphics then some (.readOnly, 0, fb)
    else (copyPixels d.size size buffer (offset / 4) 0 (n / 4) fb).map fun fb => (.ok, n, fb)

/-! ## What they keep to -/

def available (d : FbUser) (offset size : Nat) : Nat :=
  min (min size overflowLimit) (d.size - offset)

/-- The pixel lies on the screen and in the rectangle. -/
def InRectangle (d : FbUser) (x y w h p : Nat) : Prop :=
  p < d.h * d.w ∧ (y ≤ p / d.w ∧ p / d.w < y + h) ∧ x ≤ p % d.w ∧ p % d.w < x + w

/-- A transfer fails without a byte moved, or moves all that is available. -/
def Moves (d : FbUser) (offset size dstAt srcAt : Nat) (src dst : Pixels) :
    Option (Code × Nat × Pixels) → Prop
  | none => False
  | some (.ok, n, dst') => n = available d offset size ∧
      ∀ p, dst' p = if dstAt ≤ p ∧ p < dstAt + n / 4 then src (srcAt + (p - dstAt)) else dst p
  | some (_, n, dst') => n = 0 ∧ dst' = dst

/-- An update fails without a pixel changed, or copies the pixels of the
rectangle that are on the screen. -/
def Updates (d : FbUser) (x y w h : Nat) (s fb : Pixels) : Option (Code × Pixels) → Prop
  | none => False
  | some (.ok, fb') => ∀ p, (InRectangle d x y w h p → fb' p = s p) ∧
      (¬InRectangle d x y w h p → fb' p = fb p)
  | some (_, fb') => fb' = fb

theorem moves_nothing {d : FbUser} {offset size dstAt srcAt : Nat} {src dst : Pixels}
    (h : offset ≥ d.size ∨ size = 0) :
    Moves d offset size dstAt srcAt src dst (some (.ok, 0, dst)) :=
  ⟨by unfold available; omega, fun p => by rw [if_neg (by omega)]⟩

variable (d : FbUser)

theorem transferSize_eq (offset size : Nat) :
    transferSize d offset size = available d offset size := by
  simp only [transferSize, available]
  split <;> split <;> omega

theorem moves_copy {d : FbUser} {offset size dstSize srcSize dstAt srcAt : Nat}
    {src dst : Pixels} (hd : 4 * dstAt + available d offset size ≤ dstSize)
    (hs : 4 * srcAt + available d offset size ≤ srcSize) :
    Moves d offset size dstAt srcAt src dst
      ((copyPixels dstSize srcSize src dstAt srcAt (transferSize d offset size / 4) dst).map
        fun dst => (.ok, transferSize d offset size, dst)) := by
  rw [transferSize_eq, copyPixels_spec (by omega) (by omega)]
  exact ⟨rfl, fun _ => rfl⟩

theorem nRead_spec (offset size : Nat) (fb buffer : Pixels) :
    Moves d offset size 0 (offset / 4) fb buffer (nRead d offset size fb buffer) := by
  unfold nRead
  split
  · exact ⟨rfl, rfl⟩
  · split
    · rename_i hno
      exact moves_nothing hno
    · exact moves_copy (by unfold available; omega) (by unfold available; omega)

theorem nWrite_spec (graphics : Bool) (offset size : Nat) (buffer fb : Pixels) :
    Moves d offset size (offset / 4) 0 buffer fb (nWrite d graphics offset size buffer fb) := by
  unfold nWrite
  split
  · exact ⟨rfl, rfl⟩
  split
  · rename_i hno
    exact moves_nothing hno
  · cases graphics with
    | false => exact ⟨rfl, rfl⟩
    | true => exact moves_copy (by unfold available; omega) (by unfold available; omega)

theorem fbUpdate_spec (graphics : Bool) (x y w h : Nat) (s fb : Pixels) :
    Updates d x y w h s fb (fbUpdate d graphics x y w h s fb) := by
  have hpos : ∀ p, p < d.h * d.w → p / d.w < d.h ∧ p % d.w < d.w := by
    intro p hp
    have hw : 0 < d.w := Nat.pos_of_mul_pos_left (Nat.lt_of_le_of_lt (Nat.zero_le _) hp)
    exact ⟨(Nat.div_lt_iff_lt_mul hw).mpr hp, Nat.mod_lt _ hw⟩
  have hempty : (∀ p, ¬InRectangle d x y w h p) →
      Updates d x y w h s fb (some (.ok, fb)) := fun hno p =>
    ⟨fun hp => absurd hp (hno p), fun _ => rfl⟩
  unfold fbUpdate
  split
  · refine hempty fun p ⟨hp, hy, hx⟩ => ?_
    have := hpos p hp
    omega
  rename_i hin
  dsimp only
  have hw0 : (if w < d.w then w else d.w) = min w d.w := by split <;> omega
  have hh0 : (if h < d.h then h else d.h) = min h d.h := by split <;> omega
  rw [hw0, hh0]
  split
  · rename_i hzero
    refine hempty fun p ⟨hp, hy, hx⟩ => ?_
    have := hpos p hp
    omega
  cases graphics with
  | false => exact rfl
  | true =>
    obtain ⟨cw, hw⟩ : ∃ cw, cw = min w (d.w - x) := ⟨_, rfl⟩
    obtain ⟨ch, hh⟩ : ∃ ch, ch = min h (d.h - y) := ⟨_, rfl⟩
    have hcw : (if x + min w d.w > d.w then d.w - x else min w d.w) = cw := by split <;> omega
    have hch : (if y + min h d.h > d.h then d.h - y else min h d.h) = ch := by split <;> omega
    rw [hcw, hch]
    have hrows : (y + ch) * d.w ≤ d.h * d.w := Nat.mul_le_mul_right _ (by omega)
    rw [Nat.add_mul] at hrows
    have hfits := d.fits
    obtain ⟨fb', hrun, hfb'⟩ := @copyRows_spec d.size d.w cw s ch (y * d.w + x) fb
      (by omega) (by omega)
    simp only [Bool.not_true, Bool.false_eq_true, if_false, hrun]
    intro p
    have hiff : InRectangle d x y w h p ↔
        ∃ i < ch, y * d.w + x + i * d.w ≤ p ∧ p < y * d.w + x + i * d.w + cw := by
      rw [rows_iff (by omega)]
      refine ⟨fun ⟨hp, hy, hx⟩ => ?_, fun ⟨hy, hx⟩ => ⟨?_, by omega, by omega⟩⟩
      · have := hpos p hp
        omega
      · exact (Nat.div_lt_iff_lt_mul (by omega)).mp (by omega)
    exact ⟨fun hp => (hfb' p).1 (hiff.mp hp), fun hp => (hfb' p).2 (mt hiff.mpr hp)⟩

/-- No update, read or write of the framebuffer node leaves the pixels that it asks for and
that are on the screen. -/
theorem fbUser_bounds (d : FbUser) :
    (∀ aligned readable graphics x y w h s fb,
      Updates d x y w h s fb (nIoctlUpdate d aligned readable graphics x y w h s fb)) ∧
    (∀ offset size fb buffer,
      Moves d offset size 0 (offset / 4) fb buffer (nRead d offset size fb buffer)) ∧
    (∀ graphics offset size buffer fb,
      Moves d offset size (offset / 4) 0 buffer fb (nWrite d graphics offset size buffer fb)) := by
  refine ⟨fun aligned readable graphics x y w h s fb => ?_, nRead_spec d, nWrite_spec d⟩
  unfold nIoctlUpdate
  split
  · exact rfl
  · split
    · exact rfl
    · exact fbUpdate_spec d graphics x y w h s fb

def largeScreen : FbUser := ⟨0x20000000, 0x4000, 0x2000, by decide, by decide⟩

theorem largeScreen_available (fb buffer : Pixels) : ∃ buffer',
    nRead largeScreen 0 0x20000000 fb buffer = some (.ok, 0x10000000, buffer') := by
  have ht : transferSize largeScreen 0 0x20000000 = 0x10000000 := by
    rfl
  rw [nRead, if_neg (by omega), if_neg (by simp [largeScreen])]
  simp only [ht]
  rw [copyPixels_spec (by omega) (by simp [largeScreen])]
  exact ⟨_, rfl⟩

theorem largeScreen_read : fbUserInit 0x4000 0x2000 0x20000000 = some largeScreen ∧
    ¬ ∀ fb buffer n buffer', nRead largeScreen 0 0x20000000 fb buffer = some (.ok, n, buffer') →
      n = min 0x20000000 (largeScreen.size - 0) := by
  refine ⟨by simp [fbUserInit, largeScreen, intMax], fun hall => ?_⟩
  obtain ⟨buffer, hread⟩ := largeScreen_available (fun _ => 0) (fun _ => 0)
  have hn := hall _ _ _ _ hread
  simp [largeScreen] at hn

end Dancy.Fb
