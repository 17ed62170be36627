import Dancy.Console.Screen
import Mathlib.Tactic.IntervalCases
import Mathlib.Tactic.Ring

/-!
# Accesses to cells and tab stops

An operation on cells whose indices are in bounds changes the buffers only:
`Repaints`. The operations on tab stops come after them.
-/

namespace Dancy.Console

open Dancy.Lib List Function

variable {scr : Screen} {s s' : ConState} {n : Nat} {i : Int}

/-- Only cells are changed, and no access was out of bounds. -/
def Repaints (s s' : ConState) : Prop := ∃ b, s' = { s with buffer := b }

theorem Repaints.refl (s : ConState) : Repaints s s := ⟨s.buffer, rfl⟩

theorem Repaints.trans {s'' : ConState} (h : Repaints s s') (h' : Repaints s' s'') :
    Repaints s s'' := by
  obtain ⟨b, rfl⟩ := h
  obtain ⟨b', rfl⟩ := h'
  exact ⟨b', rfl⟩

def Inside (scr : Screen) (i : Int) : Prop := 0 ≤ i ∧ i < scr.cells

theorem touchCell_eq (h : Inside scr i) : touchCell scr s i = s :=
  if_pos (decide_eq_true ⟨h.1, h.2⟩)

theorem setCell_repaints (h : Inside scr i) (s : ConState) (v : UInt32) :
    Repaints s (setCell scr s i v) := by
  unfold setCell
  rw [touchCell_eq h]
  exact ⟨_, rfl⟩

theorem shiftCell_repaints {dst src : Int} (hd : Inside scr dst) (hs : Inside scr src)
    (s : ConState) : Repaints s (shiftCell scr s dst src) := by
  unfold shiftCell
  rw [touchCell_eq hd, touchCell_eq hs]
  simp only
  split
  · exact setCell_repaints hd s _
  · exact .refl s

theorem fillCell_repaints (h : Inside scr i) (s : ConState) :
    Repaints s (fillCell scr s i) := by
  unfold fillCell
  rw [touchCell_eq h]
  simp only
  split
  · exact setCell_repaints h s _
  · exact .refl s

theorem moveCells_repaints {step : Int} (n : Nat) : ∀ {dst src : Int} (s : ConState),
    (∀ j : Nat, j < n → Inside scr (dst + j * step) ∧ Inside scr (src + j * step)) →
      Repaints s (moveCells scr step n dst src s) := by
  induction n with
  | zero => exact fun s _ => .refl s
  | succ n ih =>
    intro dst src s h
    have h0 := h 0 (Nat.succ_pos n)
    simp only [Nat.cast_zero, zero_mul, add_zero] at h0
    refine (shiftCell_repaints h0.1 h0.2 s).trans (ih _ fun j hj => ?_)
    have hj := h (j + 1) (Nat.succ_lt_succ hj)
    have hstep : ∀ a : Int, a + step + j * step = a + ((j + 1 : Nat) : Int) * step := by
      intro a
      push_cast
      ring
    rwa [hstep, hstep]

theorem fillCells_repaints (n : Nat) : ∀ {i : Int} (s : ConState), 0 ≤ i → i + n ≤ scr.cells →
    Repaints s (fillCells scr n i s) := by
  induction n with
  | zero => exact fun s _ _ => .refl s
  | succ n ih =>
    intro i s h0 hn
    exact (fillCell_repaints ⟨h0, by omega⟩ s).trans (ih _ (by omega) (by omega))

theorem mapCells_repaints (f : UInt32 → UInt32) (n : Nat) : ∀ {i : Int} (s : ConState), 0 ≤ i →
    i + n ≤ scr.cells → Repaints s (mapCells scr f n i s) := by
  induction n with
  | zero => exact fun s _ _ => .refl s
  | succ n ih =>
    intro i s h0 hn
    exact (setCell_repaints ⟨h0, by omega⟩ s _).trans (ih _ (by omega) (by omega))

theorem row_bounds (scr : Screen) {y : Int} (h0 : 0 ≤ y) (hy : y < scr.rows) :
    0 ≤ y * scr.columns ∧ y * scr.columns + scr.columns ≤ scr.cells := by
  have hcells : (scr.cells : Int) = scr.rows * scr.columns := by
    unfold Screen.cells
    push_cast
    ring
  have hle : (y + 1) * scr.columns ≤ scr.rows * scr.columns :=
    mul_le_mul_of_nonneg_right (by omega) (by omega)
  rw [add_mul, one_mul] at hle
  rw [hcells]
  exact ⟨mul_nonneg h0 (by omega), hle⟩

theorem iterate_repaints {f : ConState → ConState} {p : ConState → Prop}
    (hf : ∀ s, p s → Repaints s (f s)) (hp : ∀ s b, p s → p { s with buffer := b }) (n : Nat) :
    ∀ s, p s → Repaints s (f^[n] s) := by
  induction n with
  | zero => exact fun s _ => .refl s
  | succ n ih =>
    intro s hs
    obtain ⟨b, hb⟩ := hf s hs
    refine (hf s hs).trans (ih _ ?_)
    rw [hb]
    exact hp s b hs

theorem touchTab_eq (h0 : 0 ≤ i) (h : i < scr.columns) : touchTab scr s i = s :=
  if_pos (decide_eq_true ⟨h0, h⟩)

theorem setTab_eq (h0 : 0 ≤ i) (h : i < scr.columns) (s : ConState) (v : Bool) :
    setTab scr s i v = { s with tabs := update s.tabs i v } := by
  unfold setTab
  rw [touchTab_eq h0 h]

theorem setTabs_eq (scr : Screen) (f : Int → Bool) (n : Nat) : ∀ {i : Int} (s : ConState), 0 ≤ i →
    i + n ≤ scr.columns → ∃ tabs, setTabs scr f n i s = { s with tabs := tabs } := by
  induction n with
  | zero => exact fun s _ _ => ⟨s.tabs, rfl⟩
  | succ n ih =>
    intro i s h0 hn
    rw [setTabs, setTab_eq h0 (by omega)]
    obtain ⟨tabs, htabs⟩ := ih (i := i + 1)
      { s with tabs := update s.tabs i (f i) } (by omega) (by omega)
    exact ⟨tabs, htabs⟩

theorem nextTab_eq (scr : Screen) (left : Nat) : ∀ {i t : Int} {n : Nat}, 0 ≤ i → i + left ≤ scr.columns →
    ∃ t', nextTab scr left i t n s = (t', s) ∧ (t' = t ∨ 0 ≤ t' ∧ t' < scr.columns) := by
  induction left with
  | zero => exact fun _ _ => ⟨_, rfl, .inl rfl⟩
  | succ left ih =>
    intro i t n h0 hle
    rw [nextTab]
    split
    · rw [touchTab_eq h0 (by omega)]
      simp only
      split
      · obtain ⟨t', heq, ht'⟩ := ih (n := n - 1) (by omega : 0 ≤ i + 1) (by omega)
        refine ⟨t', heq, .inr ?_⟩
        rcases ht' with rfl | ht'
        · omega
        · exact ht'
      · exact ih (by omega) (by omega)
    · simp

theorem previousTab_eq (scr : Screen) (i : Nat) : ∀ {n : Nat} (s : ConState), (i : Int) < scr.columns →
    0 ≤ s.x → s.x < scr.columns →
      ∃ x, previousTab scr i n s = { s with x := x } ∧ 0 ≤ x ∧ x < scr.columns := by
  induction i with
  | zero =>
    intro n s hi h0 hx
    rw [previousTab]
    split
    · exact ⟨0, rfl, Int.le_refl 0, hi⟩
    · exact ⟨s.x, rfl, h0, hx⟩
  | succ i ih =>
    intro n s hi h0 hx
    rw [previousTab]
    split
    · rw [touchTab_eq (by omega) (by omega)]
      simp only
      split
      · obtain ⟨x, heq, hx'⟩ := ih { s with x := ((i + 1 : Nat) : Int) }
          (by omega) (by simp only; omega) (by omega)
        exact ⟨x, heq, hx'⟩
      · exact ih s (by omega) h0 hx
    · exact ⟨s.x, rfl, h0, hx⟩

/-- The state of the decoder: none, or the length of what is being decoded is
in the bits above the two lowest ones. -/
def Utf8Ok (state : Nat) : Prop := state = 0 ∨ 1 ≤ (state &&& 0x0F) >>> 2 ∧ (state &&& 0x0F) >>> 2 ≤ 3

theorem low_bits (val : Nat) {t : Nat} (ht : t < 16) : ((val <<< 4) ||| t) &&& 0x0F = t := by
  rw [← Nat.shiftLeft_add_eq_or_of_lt (ht),
    show (0x0F : Nat) = 2 ^ 4 - 1 from rfl, Nat.and_two_pow_sub_one_eq_mod, Nat.shiftLeft_eq]
  omega

theorem utf8Table_le (i : Nat) : utf8Table i ≤ 4 := by
  unfold utf8Table
  repeat' split
  all_goals omega

variable {state limit : Nat} {n : Int} {ps : List Nat}

theorem utf8Decode_ok (h : Utf8Ok state) (c : Nat) : Utf8Ok (utf8Decode state c).2 := by
  unfold utf8Decode
  split
  · split
    · exact .inl rfl
    simp only
    split
    · exact .inl rfl
    have hle := utf8Table_le (c >>> 3)
    obtain ⟨t, ht⟩ : ∃ t, t = utf8Table (c >>> 3) := ⟨_, rfl⟩
    rw [← ht] at hle
    rename_i hgt
    refine .inr ?_
    simp only [← ht]
    rw [Nat.or_assoc]
    interval_cases t <;> simp only [Nat.reduceSub] <;>
      first | omega | rw [low_bits _ (by decide)]; decide
  · rename_i hne
    have h := h.resolve_left hne
    split
    · exact .inl rfl
    simp only
    split
    · rename_i hmore
      refine .inr ?_
      have hlt : state &&& 0x0F < 16 := lt_of_le_of_lt Nat.and_le_right (by decide)
      generalize state &&& 0x0F = t at hlt hmore h ⊢
      rw [low_bits _ (by omega)]
      interval_cases t <;> revert hmore h <;> decide
    · repeat' split
      all_goals exact .inl rfl

theorem utf8Decode_low (h : Utf8Ok state) {c v : Nat} (hv : v < 0x80)
    (hc : (utf8Decode state c).1 = .value v) : c = v := by
  unfold utf8Decode at hc
  split at hc
  · split at hc
    · exact Utf8.value.inj hc
    · simp only at hc
      split at hc <;> cases hc
  rename_i hne
  have h := h.resolve_left hne
  split at hc
  · cases hc
  simp only at hc
  split at hc
  · cases hc
  split at hc
  · cases hc
  rename_i hlong
  split at hc
  · cases hc
  rw [Utf8.value.inj hc] at hlong
  generalize (state &&& 0x0F) >>> 2 = t at hlong h
  have hge : 0x80 ≤ utf8OverlongTable t := by
    obtain ⟨h1, h3⟩ := h
    interval_cases t <;> decide
  omega

theorem utf8Decode_again {c : Nat} (h : (utf8Decode state c).1 = .errorRetry) :
    (utf8Decode state c).2 = 0 ∧ (utf8Decode 0 c).1 ≠ .errorRetry := by
  constructor
  · unfold utf8Decode at h ⊢
    split at h
    · split at h
      · cases h
      · simp only at h
        split at h <;> cases h
    rename_i hne
    rw [if_neg hne]
    split at h
    · rename_i hbad
      rw [if_pos hbad]
    · simp only at h
      repeat' split at h
      all_goals cases h
  · unfold utf8Decode
    rw [if_pos rfl]
    split
    · exact nofun
    · simp only
      split <;> exact nofun

/-! ## The invariant -/

/-- A place on the screen, and a scrolling region. -/
structure OnScreen (scr : Screen) (x y : Int) : Prop where
  x_ge : 0 ≤ x
  x_lt : x < scr.columns
  y_ge : 0 ≤ y
  y_lt : y < scr.rows

structure Region (scr : Screen) (first last : Int) : Prop where
  first_ge : 0 ≤ first
  first_le : first ≤ last
  last_lt : last < scr.rows

/-- What no byte breaks: positions and regions are on the screen. -/
structure ConInv (scr : Screen) (s : ConState) : Prop where
  cursor : OnScreen scr s.x s.y
  region : Region scr s.scrollFirst s.scrollLast
  saved : OnScreen scr (s.cmd 1) (s.cmd 2)
  mainSaved : OnScreen scr (s.cmd 4) (s.cmd 5)
  mainRegion : Region scr (s.cmd 6) (s.cmd 7)
  esc : s.escSize < escBufferSize
  utf8 : Utf8Ok s.utf8State
  fault : s.fault = false

theorem ConInv.repaints (h : ConInv scr s) (hr : Repaints s s') : ConInv scr s' := by
  obtain ⟨b, rfl⟩ := hr
  exact ⟨h.cursor, h.region, h.saved, h.mainSaved, h.mainRegion, h.esc, h.utf8, h.fault⟩

theorem ConInv.place {x y : Int} {w : Bool} (h : ConInv scr s) (hp : OnScreen scr x y) :
    ConInv scr { s with x := x, y := y, wrapDelay := w } :=
  ⟨hp, h.region, h.saved, h.mainSaved, h.mainRegion, h.esc, h.utf8, h.fault⟩

theorem ConInv.congr (h : ConInv scr s) (hx : s'.x = s.x) (hy : s'.y = s.y)
    (hf : s'.scrollFirst = s.scrollFirst) (hl : s'.scrollLast = s.scrollLast)
    (hc : s'.cmd = s.cmd) (he : s'.escSize = s.escSize) (hu : s'.utf8State = s.utf8State)
    (hfault : s'.fault = s.fault) : ConInv scr s' := by
  refine ⟨?_, ?_, ?_, ?_, ?_, ?_, ?_, hfault.trans h.fault⟩
  · rw [hx, hy]
    exact h.cursor
  · rw [hf, hl]
    exact h.region
  · rw [hc]
    exact h.saved
  · rw [hc]
    exact h.mainSaved
  · rw [hc]
    exact h.mainRegion
  · rw [he]
    exact h.esc
  · rw [hu]
    exact h.utf8

theorem origin_onScreen (scr : Screen) : OnScreen scr 0 0 := by
  have hc := scr.columns_ge
  have hr := scr.rows_ge
  exact ⟨by omega, by omega, by omega, by omega⟩

theorem top_region (scr : Screen) : Region scr 0 0 := by
  have hr := scr.rows_ge
  exact ⟨by omega, by omega, by omega⟩

theorem OnScreen.cursor_bounds (h : OnScreen scr s.x s.y) :
    0 ≤ s.y * scr.columns ∧ s.y * scr.columns ≤ s.cursor scr ∧
      s.cursor scr ≤ s.rowEnd scr ∧ s.rowEnd scr < scr.cells ∧
      scr.columns + s.y * scr.columns ≤ scr.cells ∧
      s.rowEnd scr + 1 = scr.columns + s.y * scr.columns := by
  obtain ⟨h0, h1⟩ := row_bounds scr h.y_ge h.y_lt
  have hx := h.x_ge
  have hlt := h.x_lt
  unfold ConState.cursor ConState.rowEnd
  omega

/-! ## Sequences on cells -/

section

variable (h : OnScreen scr s.x s.y)
include h

theorem insertCharacter_repaints (n : Nat) : Repaints s (insertCharacter scr s n) := by
  refine iterate_repaints (p := fun s => OnScreen scr s.x s.y) (fun s h => ?_) (fun s b h => h) n s h
  obtain ⟨h0, h1, h2, h3, -, -⟩ := h.cursor_bounds
  refine (moveCells_repaints _ s fun j hj => ?_).trans (fillCell_repaints ⟨by omega, by omega⟩ _)
  exact ⟨⟨by omega, by omega⟩, ⟨by omega, by omega⟩⟩

theorem deleteCharacter_repaints (n : Nat) : Repaints s (deleteCharacter scr s n) := by
  refine iterate_repaints (p := fun s => OnScreen scr s.x s.y) (fun s h => ?_) (fun s b h => h) n s h
  obtain ⟨h0, h1, h2, h3, -, -⟩ := h.cursor_bounds
  refine (moveCells_repaints _ s fun j hj => ?_).trans (fillCell_repaints ⟨by omega, by omega⟩ _)
  exact ⟨⟨by omega, by omega⟩, ⟨by omega, by omega⟩⟩

theorem eraseCharacter_repaints (n : Nat) : Repaints s (eraseCharacter scr s n) := by
  obtain ⟨h0, h1, h2, h3, h4, h5⟩ := h.cursor_bounds
  unfold eraseCharacter
  exact fillCells_repaints _ s (by omega) (by omega)

end

theorem eraseRange_repaints {t0 t1 : Int} (h0 : 0 ≤ t0) (hle : t0 ≤ t1) (h1 : t1 ≤ scr.cells) :
    Repaints s (eraseRange scr s t0 t1) :=
  mapCells_repaints _ _ s h0 (by omega)

theorem eraseInDisplay_repaints (h : OnScreen scr s.x s.y) (n : Nat) :
    Repaints s (eraseInDisplay scr s n) := by
  obtain ⟨h0, h1, h2, h3, -, -⟩ := h.cursor_bounds
  unfold eraseInDisplay
  split
  · exact eraseRange_repaints (by omega) (by omega) (by omega)
  split
  · exact eraseRange_repaints (by omega) (by omega) (by omega)
  · split
    · exact eraseRange_repaints (by omega) (by omega) (by omega)
    · exact .refl s

theorem eraseInLine_repaints (h : OnScreen scr s.x s.y) (n : Nat) :
    Repaints s (eraseInLine scr s n) := by
  obtain ⟨h0, h1, h2, h3, h4, h5⟩ := h.cursor_bounds
  unfold eraseInLine
  split
  · exact eraseRange_repaints (by omega) (by omega) (by omega)
  split
  · exact eraseRange_repaints (by omega) (by omega) (by omega)
  · split
    · exact eraseRange_repaints (by omega) (by omega) (by omega)
    · exact .refl s

theorem scroll_repaints {scroll : ConState → ConState}
    (hs : ∀ s, Region scr s.scrollFirst s.scrollLast → Repaints s (scroll s))
    (h : Region scr s.scrollFirst s.scrollLast) (n : Nat) : Repaints s (scroll^[n] s) :=
  iterate_repaints hs (fun _ _ h => h) n s h

theorem Region.bounds {first last : Int} (h : Region scr first last) :
    0 ≤ first * scr.columns ∧ 0 ≤ (last - first) * scr.columns ∧
      last * scr.columns = first * scr.columns + (last - first) * scr.columns ∧
      last * scr.columns + scr.columns ≤ scr.cells := by
  have hle := h.first_le
  obtain ⟨hfirst, -⟩ := row_bounds scr h.first_ge (lt_of_le_of_lt hle h.last_lt)
  obtain ⟨-, hlast⟩ := row_bounds scr (h.first_ge.trans hle) h.last_lt
  exact ⟨hfirst, mul_nonneg (by omega) (by omega), by ring, by omega⟩

theorem up_repaints (s : ConState) (h : Region scr s.scrollFirst s.scrollLast) :
    Repaints s (conScrollUp scr s) := by
  obtain ⟨hfirst, hmovs, hregion, hlast⟩ := h.bounds
  unfold conScrollUp
  generalize (s.scrollLast - s.scrollFirst) * (scr.columns : Int) = movs at *
  refine (moveCells_repaints movs.toNat s fun j hj => ?_).trans
    (fillCells_repaints _ _ (by omega) (by omega))
  exact ⟨⟨by omega, by omega⟩, ⟨by omega, by omega⟩⟩

theorem down_repaints (s : ConState) (h : Region scr s.scrollFirst s.scrollLast) :
    Repaints s (conScrollDown scr s) := by
  obtain ⟨hfirst, hmovs, hregion, hlast⟩ := h.bounds
  unfold conScrollDown
  generalize (s.scrollLast - s.scrollFirst) * (scr.columns : Int) = movs at *
  refine (moveCells_repaints movs.toNat s fun j hj => ?_).trans
    (fillCells_repaints _ _ hfirst (by omega))
  exact ⟨⟨by omega, by omega⟩, ⟨by omega, by omega⟩⟩

/-- Lines are inserted or deleted only inside the region, so what is scrolled
is a region too. -/
theorem scrollLines_repaints {scroll : ConState → ConState}
    (hs : ∀ s, Region scr s.scrollFirst s.scrollLast → Repaints s (scroll s))
    (hc : OnScreen scr s.x s.y) (h : Region scr s.scrollFirst s.scrollLast) (n : Nat) :
    Repaints s (scrollLines scr scroll s n) := by
  unfold scrollLines
  by_cases hout : s.y < s.scrollFirst ∨ s.y > s.scrollLast
  · simp only [hout]
    exact ⟨s.buffer, rfl⟩
  simp only [hout, if_false]
  have hregion : Region scr s.y s.scrollLast := ⟨hc.y_ge, by omega, h.last_lt⟩
  obtain ⟨b, hb⟩ := scroll_repaints hs (s := { s with scrollFirst := s.y }) hregion
    (min n scr.rows)
  rw [hb]
  exact ⟨b, rfl⟩

/-! ## Sequences on the cursor, the modes and the region -/

theorem increased_bounds {v : Int} (h0 : 0 ≤ v) (hn : 0 ≤ n) (hl : 0 < limit) :
    0 ≤ increased v n limit ∧ increased v n limit < limit := by
  unfold increased
  split <;> omega

theorem decreased_bounds {v : Int} (h0 : 0 ≤ v) (hv : v < limit) (hn : 0 ≤ n) :
    0 ≤ decreased v n ∧ decreased v n < limit := by
  unfold decreased
  split <;> omega

theorem placed_bounds (hn : 1 ≤ n) (hl : 0 < limit) :
    0 ≤ placed n limit ∧ placed n limit < limit := by
  unfold placed
  split <;> omega

theorem countOf_pos (ps : List Nat) (i : Nat) : 1 ≤ countOf ps i := by
  unfold countOf
  split <;> omega

theorem cursorPlace_onScreen (h : OnScreen scr s.x s.y) {type : UInt8} {x y : Int}
    (hp : cursorPlace scr s type ps = some (x, y)) : OnScreen scr x y := by
  have hcol : 0 < scr.columns := lt_of_lt_of_le (by decide) scr.columns_ge
  have hrow : 0 < scr.rows := lt_of_lt_of_le (by decide) scr.rows_ge
  have hn := countOf_pos ps 0
  have hm := countOf_pos ps 1
  have hup := decreased_bounds (n := countOf ps 0) h.y_ge h.y_lt (by omega)
  have hdown := increased_bounds (n := countOf ps 0) h.y_ge (by omega) hrow
  have hleft := decreased_bounds (n := countOf ps 0) h.x_ge h.x_lt (by omega)
  have hright := increased_bounds (n := countOf ps 0) h.x_ge (by omega) hcol
  have hnx := placed_bounds (n := countOf ps 0) (by omega) hcol
  have hny := placed_bounds (n := countOf ps 0) (by omega) hrow
  have hmx := placed_bounds (n := countOf ps 1) (by omega) hcol
  unfold cursorPlace at hp
  repeat' split at hp
  all_goals cases hp
  · exact ⟨h.x_ge, h.x_lt, hup.1, hup.2⟩
  · exact ⟨h.x_ge, h.x_lt, hdown.1, hdown.2⟩
  · exact ⟨hright.1, hright.2, h.y_ge, h.y_lt⟩
  · exact ⟨hleft.1, hleft.2, h.y_ge, h.y_lt⟩
  · exact ⟨Int.le_refl 0, by omega, hdown.1, hdown.2⟩
  · exact ⟨Int.le_refl 0, by omega, hup.1, hup.2⟩
  · exact ⟨hnx.1, hnx.2, h.y_ge, h.y_lt⟩
  · exact ⟨hmx.1, hmx.2, hny.1, hny.2⟩
  · exact ⟨h.x_ge, h.x_lt, hny.1, hny.2⟩

section

variable (h : ConInv scr s)
include h

theorem saveCursor_inv : ConInv scr (saveCursor s) := by
  refine ⟨h.cursor, h.region, ?_, ?_, ?_, h.esc, h.utf8, h.fault⟩
  · exact h.cursor
  · exact h.mainSaved
  · exact h.mainRegion

theorem saveMainState_inv : ConInv scr (saveMainState s) := by
  refine ⟨h.cursor, h.region, ?_, ?_, ?_, h.esc, h.utf8, h.fault⟩
  · exact h.saved
  · exact h.cursor
  · exact h.region

theorem restoreCursor_inv : ConInv scr (restoreCursor s) :=
  ⟨h.saved, h.region, h.saved, h.mainSaved, h.mainRegion, h.esc, h.utf8, h.fault⟩

theorem restoreMainState_inv : ConInv scr (restoreMainState s) :=
  ⟨h.mainSaved, h.mainRegion, h.saved, h.mainSaved, h.mainRegion, h.esc, h.utf8, h.fault⟩

end

theorem allCells_repaints (scr : Screen) (f : UInt32 → UInt32) (s : ConState) :
    Repaints s (mapCells scr f scr.cells 0 s) :=
  mapCells_repaints f _ s (Int.le_refl 0) (by omega)

theorem ConInv.ite {p : Prop} [Decidable p] (h : ConInv scr s) (h' : ConInv scr s') :
    ConInv scr (if p then s else s') := by
  split
  · exact h
  · exact h'

theorem setModes_inv (ps : List Nat) : ∀ {s : ConState}, ConInv scr s →
    ConInv scr (setModes scr ps s) := by
  induction ps with
  | nil => exact fun h => h
  | cons n rest ih =>
    intro s h
    have h1 : ConInv scr (if n = 25 then { s with cursorVisible := true } else s) :=
      .ite (h.congr rfl rfl rfl rfl rfl rfl rfl rfl) h
    have h2 := fun b : Bool => ConInv.ite (p := b) h1 (saveMainState_inv h1)
    refine .ite (.repaints ?_ (allCells_repaints scr _ _)) (ih h1)
    exact (h2 _).congr rfl rfl rfl rfl rfl rfl rfl rfl

theorem resetModes_inv (ps : List Nat) : ∀ {s : ConState}, ConInv scr s →
    ConInv scr (resetModes scr ps s) := by
  induction ps with
  | nil => exact fun h => h
  | cons n rest ih =>
    intro s h
    have h1 : ConInv scr (if n = 25 then { s with cursorVisible := false } else s) :=
      .ite (h.congr rfl rfl rfl rfl rfl rfl rfl rfl) h
    refine .ite ?_ (ih h1)
    refine .repaints (restoreMainState_inv ?_) (allCells_repaints scr _ _)
    exact (h1.repaints (allCells_repaints scr _ _)).congr rfl rfl rfl rfl rfl rfl rfl rfl

section

variable (h : ConInv scr s)
include h

theorem setScrollingRegion_inv (n m : Nat) : ConInv scr (setScrollingRegion scr s n m) := by
  have hrow := scr.rows_ge
  refine ⟨h.cursor, ⟨?_, ?_, ?_⟩, h.saved, h.mainSaved, h.mainRegion, h.esc, h.utf8, h.fault⟩
  all_goals
    simp only [setScrollingRegion]
    repeat' split
    all_goals omega

theorem forwardTabulation_inv (n : Nat) : ConInv scr (forwardTabulation scr s n) := by
  have hx := h.cursor.x_ge
  have hlt := h.cursor.x_lt
  obtain ⟨t, heq, ht⟩ := nextTab_eq scr (scr.columns - (s.x + 1)).toNat
    (i := s.x + 1) (n := n) (by omega) (by omega)
  unfold forwardTabulation
  rw [heq]
  refine h.place ⟨?_, ?_, h.cursor.y_ge, h.cursor.y_lt⟩
  · omega
  · omega

theorem backwardTabulation_inv (n : Nat) : ConInv scr (backwardTabulation scr s n) := by
  have hx := h.cursor.x_ge
  have hlt := h.cursor.x_lt
  have hw : ConInv scr { s with wrapDelay := false } := h.congr rfl rfl rfl rfl rfl rfl rfl rfl
  unfold backwardTabulation
  simp only
  split
  · exact hw
  · obtain ⟨x, heq, hx0, hx1⟩ := previousTab_eq scr (s.x - 1).toNat
      { s with wrapDelay := false } (by omega) hx hlt
    rw [heq]
    exact hw.place (w := false) ⟨hx0, hx1, h.cursor.y_ge, h.cursor.y_lt⟩

theorem tabClear_inv (n : Nat) : ConInv scr (tabClear scr s n) := by
  unfold tabClear
  split
  · split
    · rw [setTab_eq h.cursor.x_ge h.cursor.x_lt]
      exact h.congr rfl rfl rfl rfl rfl rfl rfl rfl
    · exact h
  split
  · obtain ⟨tabs, heq⟩ := setTabs_eq scr (fun _ => false) (scr.columns - 1) s
      (Int.le_refl 0) (by omega)
    rw [heq]
    exact h.congr rfl rfl rfl rfl rfl rfl rfl rfl
  · exact h

end

theorem handleCells_inv (h : ConInv scr s) (type : UInt8) (ps : List Nat) :
    ConInv scr (handleCells scr s type ps) := by
  refine .ite (h.repaints (insertCharacter_repaints h.cursor _)) ?_
  refine .ite (forwardTabulation_inv h _) ?_
  refine .ite (h.repaints (eraseInDisplay_repaints h.cursor _)) ?_
  refine .ite (h.repaints (eraseInLine_repaints h.cursor _)) ?_
  refine .ite (h.repaints (scrollLines_repaints down_repaints h.cursor h.region _)) ?_
  refine .ite (h.repaints (scrollLines_repaints up_repaints h.cursor h.region _)) ?_
  refine .ite (h.repaints (deleteCharacter_repaints h.cursor _)) ?_
  refine .ite (h.repaints (scroll_repaints up_repaints h.region _)) ?_
  refine .ite (h.repaints (scroll_repaints down_repaints h.region _)) ?_
  refine .ite (h.repaints (eraseCharacter_repaints h.cursor _)) ?_
  refine .ite (backwardTabulation_inv h _) ?_
  refine .ite (tabClear_inv h _) ?_
  refine .ite (.ite (setModes_inv ps h) h) ?_
  refine .ite (.ite (resetModes_inv ps h) h) ?_
  refine .ite (setScrollingRegion_inv h _ _) ?_
  refine .ite (.ite (saveCursor_inv h) h) ?_
  exact .ite (.ite (restoreCursor_inv h) h) h

/-! ## Select graphics rendition -/

/-- The indices of the parameters that the loop takes as such; the others
belong to an extended color. -/
def sgrIndices (ps : List Nat) : Nat → Nat → List Nat
  | 0, _ => []
  | fuel + 1, i =>
    if i < ps.length then i :: sgrIndices ps fuel ((sgrSkip ps i).1 + 1) else []

/-- An extended color at an index, that has its `2` in place. -/
def LateAt (ps : List Nat) (i : Nat) : Prop :=
  11 ≤ i ∧ (ps.getD i 0 = 38 ∨ ps.getD i 0 = 48) ∧ i + 1 < ps.length ∧ ps.getD (i + 1) 0 = 2

/-- An extended color that begins too late: `38` or `48` at index 11 or after
it, followed by a `2`. -/
def LateColor (ps : List Nat) : Prop := ∃ i ∈ sgrIndices ps ps.length 0, LateAt ps i

theorem sgrSkip_ge (hlen : ps.length ≤ parametersSize) {i : Nat} (hi : i < ps.length) :
    ¬ (sgrSkip ps i).2 < parametersSize ↔ LateAt ps i := by
  unfold parametersSize at *
  unfold sgrSkip LateAt
  split
  · rename_i h
    simp only
    split
    · rename_i h2
      omega
    · rename_i h2
      exact ⟨fun hge => by omega, fun hlate => absurd hlate.2.2.2 h2⟩
  · rename_i h
    constructor
    · intro hge
      omega
    · rintro ⟨-, hcolor, hlt, -⟩
      omega

/-- Only the attribute changes, and an access is out of bounds exactly for a
late color. -/
theorem sgrLoop_eq (hlen : ps.length ≤ parametersSize) (fuel : Nat) :
    ∀ (i : Nat) (s : ConState), ∃ a f, sgrLoop ps fuel i s = { s with attr := a, fault := f } ∧
      (f = true ↔ s.fault = true ∨ ∃ j ∈ sgrIndices ps fuel i, LateAt ps j) := by
  induction fuel with
  | zero =>
    intro i s
    refine ⟨s.attr, s.fault, rfl, ?_⟩
    simp [sgrIndices]
  | succ fuel ih =>
    intro i s
    rw [sgrLoop, sgrIndices]
    split
    · rename_i hi
      obtain ⟨s1, hs1⟩ : ∃ s1, s1 = { s with attr := sgrAttribute s.attr (ps.getD i 0) } :=
        ⟨_, rfl⟩
      have hfault1 : s1.fault = s.fault := by rw [hs1]
      rw [← hs1]
      obtain ⟨a, f, heq, hf⟩ := ih ((sgrSkip ps i).1 + 1)
        (s1.check ((sgrSkip ps i).2 < parametersSize))
      refine ⟨a, f, ?_, ?_⟩
      · rw [heq, hs1]
        unfold ConState.check
        split <;> rfl
      simp only [mem_cons, exists_eq_or_imp]
      rw [hf, ← sgrSkip_ge hlen hi, ← or_assoc]
      unfold ConState.check
      split
      · rename_i hok
        have hlt := of_decide_eq_true hok
        simp [hfault1, hlt]
      · rename_i hok
        have hge : ¬ (sgrSkip ps i).2 < parametersSize := fun hlt => hok (decide_eq_true hlt)
        simp [hge]
    · refine ⟨s.attr, s.fault, rfl, ?_⟩
      simp

theorem selectGraphicsRendition_inv (h : ConInv scr s) (hlen : ps.length ≤ parametersSize)
    (hlate : ¬ LateColor ps) :
    ConInv scr (selectGraphicsRendition ps s) := by
  have hkeep : ∀ ps : List Nat, ps.length ≤ parametersSize → ¬ LateColor ps →
      ConInv scr (sgrLoop ps ps.length 0 s) := by
    intro ps hlen hlate
    obtain ⟨a, f, heq, hf⟩ := sgrLoop_eq hlen ps.length 0 s
    have hfalse : f = false := by
      by_contra hne
      rcases hf.mp (eq_true_of_ne_false hne) with hfault | hex
      · rw [h.fault] at hfault
        cases hfault
      · exact hlate hex
    rw [heq, hfalse]
    exact h.congr rfl rfl rfl rfl rfl rfl rfl h.fault.symm
  unfold selectGraphicsRendition
  by_cases hps : ps = []
  · simp only [hps]
    refine hkeep [0] (by decide) ?_
    rintro ⟨i, -, h11, -, hlt, -⟩
    simp only [length_singleton] at hlt
    omega
  · simp only [hps]
    exact hkeep ps hlen hlate

theorem scanDigits_some (buf : Nat → UInt8) (left : Nat) : ∀ {k p m : Nat}, k ≤ m → m < k + left →
    isDigit (buf m) = false → ∃ r, scanDigits buf left k p = some r := by
  induction left with
  | zero =>
    omega
  | succ left ih =>
    intro k p m h1 h2 hm
    rw [scanDigits]
    split
    · rename_i hdigit
      have hne : k ≠ m := by
        rintro rfl
        rw [hm] at hdigit
        cases hdigit
      exact ih (by omega) (by omega) hm
    · exact ⟨_, rfl⟩

/-- The last byte of a sequence ends every scan, and at most sixteen
parameters are kept. -/
theorem parseLoop_cases (buf : Nat → UInt8) {e : Nat} {type : UInt8} (he : e ≤ escBufferSize)
    (hlast : 0 < e ∧ buf (e - 1) = type) (hdigit : isDigit type = false) (fuel : Nat) :
    ∀ (k : Nat) (ps : List Nat), ps.length ≤ parametersSize →
      parseLoop buf e type fuel k ps = .bad ∨
        ∃ ps', parseLoop buf e type fuel k ps = .parameters ps' ∧
          ps'.length ≤ parametersSize := by
  induction fuel with
  | zero => exact fun k ps hps => .inr ⟨ps, rfl, hps⟩
  | succ fuel ih =>
    intro k ps hps
    rw [parseLoop]
    split
    · split
      · exact .inr ⟨ps, rfl, hps⟩
      obtain ⟨⟨k', p⟩, hscan⟩ := scanDigits_some buf (escBufferSize - k) (k := k)
        (m := e - 1) (by omega) (by omega) (by rw [hlast.2]; exact hdigit)
      rw [hscan]
      simp only
      split
      · exact .inl rfl
      split
      · exact .inl rfl
      · refine ih _ _ ?_
        rw [length_append, length_singleton]
        omega
    · exact .inr ⟨ps, rfl, hps⟩

/-! ## Escape sequences -/

theorem setTabs_init (scr : Screen) (s : ConState) : ∃ tabs, conInitVariables scr s = { s with
      attr := 0x00800000, escSize := 0, x := 0, y := 0, scrollFirst := 0,
      scrollLast := scr.rows - 1, utf8State := 0, wrapDelay := false, cursorVisible := true,
      tabs := tabs, cmd := fun _ => 0 } := by
  have hcol := scr.columns_ge
  unfold conInitVariables
  simp only
  obtain ⟨tabs, heq⟩ := setTabs_eq scr (fun i => i % 8 = 0) scr.columns { s with
    attr := 0x00800000, escSize := 0, x := 0, y := 0, scrollFirst := 0,
    scrollLast := scr.rows - 1, utf8State := 0, wrapDelay := false, cursorVisible := true }
    (Int.le_refl 0) (by omega)
  rw [heq, setTab_eq (by omega) (by omega)]
  exact ⟨_, rfl⟩

theorem conInitVariables_inv (hfault : s.fault = false) : ConInv scr (conInitVariables scr s) := by
  have hrow := scr.rows_ge
  obtain ⟨tabs, heq⟩ := setTabs_init scr s
  rw [heq]
  exact ⟨origin_onScreen scr, ⟨Int.le_refl 0, by simp only; omega, by simp only; omega⟩,
    origin_onScreen scr, origin_onScreen scr, top_region scr, Nat.succ_pos _, .inl rfl, hfault⟩

theorem reset_inv (h : ConInv scr s) : ConInv scr (reset scr s) := by
  obtain ⟨b1, h1⟩ := allCells_repaints scr (fun _ => 0) { s with alt := false }
  obtain ⟨b2, h2⟩ := allCells_repaints scr (fun _ => 0)
    { s with alt := true, buffer := b1 }
  unfold reset
  simp only [h1, h2]
  exact conInitVariables_inv h.fault

theorem reverseIndex_inv (h : ConInv scr s) : ConInv scr (reverseIndex scr s) := by
  have hy := h.cursor.y_lt
  unfold reverseIndex
  split
  · exact h.repaints (down_repaints s h.region)
  · split
    · exact h.place (y := s.y - 1)
        ⟨h.cursor.x_ge, h.cursor.x_lt, by omega, by omega⟩
    · exact h

theorem handlePlain_inv (h : ConInv scr s) : ConInv scr (handlePlain scr s) := by
  refine .ite (reset_inv h) ?_
  refine .ite ?_ ?_
  · rw [setTab_eq h.cursor.x_ge h.cursor.x_lt]
    exact h.congr rfl rfl rfl rfl rfl rfl rfl rfl
  refine .ite (reverseIndex_inv h) ?_
  refine .ite (saveCursor_inv h) ?_
  exact .ite (restoreCursor_inv h) h

/-- A sequence that ends here and selects graphics rendition has no late
color. -/
def Meets (s : ConState) : Prop :=
  s.csi = true → s.escType = 0x6D → ∀ ps, parseParameters s = .parameters ps → ¬ LateColor ps

/-- The end of a sequence: a byte that is not a digit. -/
structure Ended (s : ConState) : Prop where
  size : 1 < s.escSize
  digit : s.csi = true → isDigit s.escType = false

theorem conHandleEscape_inv (h : ConInv scr s) (he : Ended s) (hm : Meets s) :
    ConInv scr (conHandleEscape scr s) := by
  unfold conHandleEscape
  split
  · rename_i hcsi
    have hlast : 0 < s.escSize ∧ s.escBuffer (s.escSize - 1) = s.escType := by
      have hsize := he.size
      refine ⟨by omega, ?_⟩
      unfold ConState.escType
      rw [if_pos hsize]
    have hesc := h.esc
    rcases parseLoop_cases s.escBuffer (le_of_lt hesc) hlast (he.digit hcsi) s.escSize
      (if s.csiQuestion then 3 else 2) [] (by decide) with hbad | ⟨ps, hps, hlen⟩
    · rwa [show parseParameters s = .bad from hbad]
    have hparse : parseParameters s = .parameters ps := hps
    rw [hparse]
    simp only [handleCsi]
    split
    · rename_i hsgr
      exact selectGraphicsRendition_inv h hlen (hm hcsi hsgr ps hparse)
    · split
      · rename_i x y hplace
        exact h.place (cursorPlace_onScreen h.cursor hplace)
      · exact handleCells_inv h _ _
  · exact handlePlain_inv h

end Dancy.Console
