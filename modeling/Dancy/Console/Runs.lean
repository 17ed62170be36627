import Dancy.Console.Cells

/-!
# Writing to a console

The invariant over every byte of every write. The one condition is on the
byte that completes a sequence for select graphics rendition.
-/

namespace Dancy.Console

open Dancy.Lib Function

variable {scr : Screen} {s s' : ConState}

/-! ## Characters -/

theorem conIncrementRow_inv (h : ConInv scr s) : ConInv scr (conIncrementRow scr s) := by
  have hy := h.cursor.y_ge
  have hlt := h.cursor.y_lt
  unfold conIncrementRow
  simp only
  split
  · obtain ⟨b, hb⟩ := up_repaints { s with y := s.y + 1 } h.region
    rw [hb]
    refine ⟨⟨h.cursor.x_ge, h.cursor.x_lt, ?_, ?_⟩, h.region, h.saved, h.mainSaved,
      h.mainRegion, h.esc, h.utf8, h.fault⟩
    · simp only
      omega
    · simp only
      omega
  · split
    · refine h.place ⟨h.cursor.x_ge, h.cursor.x_lt, ?_, ?_⟩
      · omega
      · omega
    · refine h.place (w := s.wrapDelay) ⟨h.cursor.x_ge, h.cursor.x_lt, ?_, ?_⟩
      · omega
      · omega

theorem ConInv.column {x : Int} {w : Bool} (h : ConInv scr s) (h0 : 0 ≤ x)
    (hx : x < scr.columns) : ConInv scr { s with x := x, wrapDelay := w } :=
  h.place ⟨h0, hx, h.cursor.y_ge, h.cursor.y_lt⟩

theorem columns_pos (scr : Screen) : (0 : Int) < scr.columns := by
  have hcol := scr.columns_ge
  omega

theorem appendEsc_inv (h : ConInv scr s) (hroom : s.escSize + 1 < escBufferSize) (c : UInt8) :
    ConInv scr (appendEsc s c) := by
  unfold appendEsc ConState.check
  rw [if_pos (decide_eq_true h.esc)]
  exact ⟨h.cursor, h.region, h.saved, h.mainSaved, h.mainRegion, hroom, h.utf8, h.fault⟩

theorem appendEsc_size (s : ConState) (c : UInt8) : (appendEsc s c).escSize = s.escSize + 1 := by
  unfold appendEsc ConState.check
  split <;> rfl

theorem appendEsc_buffer (s : ConState) (c : UInt8) :
    (appendEsc s c).escBuffer = update s.escBuffer s.escSize c := by
  unfold appendEsc ConState.check
  split <;> rfl

section

variable (h : ConInv scr s)
include h

theorem clearEsc_inv : ConInv scr (clearEsc s) :=
  ⟨h.cursor, h.region, h.saved, h.mainSaved, h.mainRegion, Nat.succ_pos _, h.utf8, h.fault⟩

theorem beginEsc_inv :
    ConInv scr (if s.escSize ≠ 0 then clearEsc s else s) ∧
      (if s.escSize ≠ 0 then clearEsc s else s).escSize = 0 := by
  by_cases h0 : s.escSize = 0
  · simp only [h0, ne_eq, not_true_eq_false, if_false]
    exact ⟨h, trivial⟩
  · simp only [h0, ne_eq]
    exact ⟨clearEsc_inv h, rfl⟩

theorem tabulate_inv : ConInv scr (tabulate scr s) := by
  have hx := h.cursor.x_ge
  have hlt := h.cursor.x_lt
  obtain ⟨t, heq, ht⟩ := nextTab_eq scr (scr.columns - (s.x + 1)).toNat
    (i := s.x + 1) (n := 1) (by omega) (by omega)
  unfold tabulate
  rw [heq]
  simp only
  split
  · exact (conIncrementRow_inv h).column
      (Int.le_refl 0) (columns_pos scr)
  · exact h.column (w := s.wrapDelay) (by omega) (by omega)

theorem putNormal_inv (c : UInt32) : ConInv scr (putNormal scr s c) := by
  obtain ⟨s1, hs1⟩ : ∃ s1, s1 = if s.wrapDelay ∧ s.x = scr.columns - 1 then
      conIncrementRow scr { s with x := 0 } else s := ⟨_, rfl⟩
  have h1 : ConInv scr s1 := by
    rw [hs1]
    exact .ite (conIncrementRow_inv (h.column (Int.le_refl 0)
      (columns_pos scr))) h
  obtain ⟨h0, hle, hend, hcells, -, -⟩ := h1.cursor.cursor_bounds
  have hin : Inside scr (s1.cursor scr) := ⟨by omega, by omega⟩
  have h2 := h1.repaints (setCell_repaints hin s1 (c ||| s1.attr))
  have hx := h2.cursor.x_ge
  unfold putNormal
  simp only [← hs1]
  split
  · exact h2.column (by have := columns_pos scr; omega) (by omega)
  · exact h2.column (w := (setCell scr s1 (s1.cursor scr) (c ||| s1.attr)).wrapDelay) (by omega)
      (by omega)

theorem switchCharacter_inv (c : Nat) : ConInv scr (switchCharacter scr s c) := by
  have hx := h.cursor.x_ge
  have hlt := h.cursor.x_lt
  obtain ⟨hbegin, hsize⟩ := beginEsc_inv h
  refine .ite h ?_
  refine .ite (h.column (by split <;> omega) (by split <;> omega)) ?_
  refine .ite (tabulate_inv h) ?_
  refine .ite (conIncrementRow_inv (h.column (w := s.wrapDelay) (Int.le_refl 0)
    (columns_pos scr))) ?_
  refine .ite (h.column (Int.le_refl 0) (columns_pos scr)) ?_
  refine .ite (appendEsc_inv hbegin (by rw [hsize]; decide) _) ?_
  refine .ite (appendEsc_inv (appendEsc_inv hbegin (by rw [hsize]; decide) _) ?_ _) ?_
  · rw [appendEsc_size, hsize]
    decide
  · exact putNormal_inv h _

theorem endCharacter_inv (c : Nat) : ConInv scr (endCharacter scr s c) := by
  have hs := switchCharacter_inv h c
  exact .ite (hs.congr rfl rfl rfl rfl rfl rfl rfl rfl) hs

end

/-! ## Bytes -/

/-- A byte that completes a sequence for select graphics rendition meets the
condition. -/
def Fits (s : ConState) (byte : UInt8) : Prop :=
  byte = 0x6D → s.escSize ≠ 0 → s.escSize + 2 ≤ escBufferSize → Meets (appendEsc s 0x6D)

/-- A sequence ends with a byte that is not a digit, unless it is a plain
one. -/
theorem appendEsc_ended {c : UInt8} (h0 : s.escSize ≠ 0)
    (hc : isDigit c = false ∨ s.escSize = 1 ∧ c ≠ 0x5B) : Ended (appendEsc s c) := by
  have hsize := appendEsc_size s c
  refine ⟨by omega, fun hcsi => ?_⟩
  have htype : (appendEsc s c).escType = c := by
    unfold ConState.escType
    rw [if_pos (by omega), appendEsc_buffer, appendEsc_size, Nat.add_sub_cancel, update_self]
  rcases hc with hc | ⟨h1, hne⟩
  · rwa [htype]
  · unfold ConState.csi at hcsi
    rw [appendEsc_buffer, h1, update_self] at hcsi
    exact absurd (of_decide_eq_true hcsi) hne

theorem final_byte {c : Nat} (h0 : 0x40 ≤ c) (h1 : c ≤ 0x7E) :
    isDigit (UInt8.ofNat c) = false ∧ (UInt8.ofNat c = 0x6D → c = 0x6D) := by
  have hn : (UInt8.ofNat c).toNat = c := UInt8.toNat_ofNat_of_lt (show c < 256 by omega)
  constructor
  · unfold isDigit
    rw [decide_eq_false_iff_not, UInt8.le_iff_toNat_le, UInt8.le_iff_toNat_le, hn]
    simp only [UInt8.reduceToNat]
    omega
  · intro heq
    rw [heq] at hn
    exact hn.symm

theorem putCharacter_inv (h : ConInv scr s) {c : Nat} (hfit : c = 0x6D → Fits s 0x6D) :
    ConInv scr (putCharacter scr s c) := by
  unfold putCharacter
  obtain ⟨d, hd⟩ : ∃ d, d = if c = 0x0C ∨ c = 0x0B then 0x0A else c := ⟨_, rfl⟩
  have hdc : d = 0x6D → Fits s 0x6D := by
    intro hm
    refine hfit ?_
    rw [hd] at hm
    split at hm <;> omega
  rw [← hd]
  refine .ite (clearEsc_inv h) ?_
  split
  · exact endCharacter_inv h d
  rename_i hsize
  split
  · rename_i hplain
    have hne : UInt8.ofNat d ≠ 0x5B ∧ UInt8.ofNat d ≠ 0x6D := by
      rcases hplain.2 with rfl | rfl <;> decide
    have happend := appendEsc_inv h (by rw [hplain.1]; decide) (UInt8.ofNat d)
    have hended := appendEsc_ended hsize (.inr ⟨hplain.1, hne.1⟩)
    have hmeets : Meets (appendEsc s (UInt8.ofNat d)) := by
      intro _ htype
      unfold ConState.escType at htype
      rw [if_pos hended.size, appendEsc_buffer, appendEsc_size, Nat.add_sub_cancel,
        update_self] at htype
      exact absurd htype hne.2
    have hdone := conHandleEscape_inv happend hended hmeets
    exact ⟨hdone.cursor, hdone.region, hdone.saved, hdone.mainSaved, hdone.mainRegion,
      Nat.succ_pos _, hdone.utf8, hdone.fault⟩
  · split
    · exact endCharacter_inv (clearEsc_inv h) d
    have happend := appendEsc_inv h (by omega) (UInt8.ofNat d)
    split
    · exact happend
    split
    · rename_i hfinal
      obtain ⟨hdigit, hm⟩ := final_byte hfinal.1 hfinal.2
      have hended := appendEsc_ended hsize (.inl hdigit)
      refine clearEsc_inv (conHandleEscape_inv happend hended fun hcsi htype => ?_)
      have hbyte := htype
      unfold ConState.escType at hbyte
      rw [if_pos hended.size, appendEsc_buffer, appendEsc_size, Nat.add_sub_cancel,
        update_self] at hbyte
      rw [hbyte] at hcsi htype ⊢
      exact hdc (hm hbyte) rfl hsize (by omega) hcsi htype
    · exact endCharacter_inv h d

/-- What the decoder and the next byte of a sequence depend on. -/
structure SameInput (s s' : ConState) : Prop where
  size : s'.escSize = s.escSize
  buffer : s'.escBuffer = s.escBuffer
  utf8 : s'.utf8State = s.utf8State

theorem SameInput.refl (s : ConState) : SameInput s s := ⟨rfl, rfl, rfl⟩

theorem SameInput.trans {s'' : ConState} (h : SameInput s s') (h' : SameInput s' s'') :
    SameInput s s'' :=
  ⟨h'.size.trans h.size, h'.buffer.trans h.buffer, h'.utf8.trans h.utf8⟩

theorem Repaints.sameInput (h : Repaints s s') : SameInput s s' := by
  obtain ⟨b, rfl⟩ := h
  exact ⟨rfl, rfl, rfl⟩

theorem conIncrementRow_sameInput (h : ConInv scr s) : SameInput s (conIncrementRow scr s) := by
  unfold conIncrementRow
  simp only
  split
  · obtain ⟨b, hb⟩ := up_repaints { s with y := s.y + 1 } h.region
    rw [hb]
    exact ⟨rfl, rfl, rfl⟩
  · split <;> exact ⟨rfl, rfl, rfl⟩

theorem endCharacter_sameInput (h : ConInv scr s) :
    SameInput s (endCharacter scr s 0xFFFD) := by
  have hnormal : SameInput s (putNormal scr s (UInt32.ofNat 0xFFFD)) := by
    obtain ⟨s1, hs1⟩ : ∃ s1, s1 = if s.wrapDelay ∧ s.x = scr.columns - 1 then
        conIncrementRow scr { s with x := 0 } else s := ⟨_, rfl⟩
    have hzero : ConInv scr { s with x := 0 } :=
      h.column (Int.le_refl 0) (columns_pos scr)
    have h1 : ConInv scr s1 ∧ SameInput s s1 := by
      rw [hs1]
      split
      · exact ⟨conIncrementRow_inv hzero,
          ⟨(conIncrementRow_sameInput hzero).size, (conIncrementRow_sameInput hzero).buffer,
            (conIncrementRow_sameInput hzero).utf8⟩⟩
      · exact ⟨h, .refl s⟩
    obtain ⟨h0, hle, hend, hcells, -, -⟩ := h1.1.cursor.cursor_bounds
    have hin : Inside scr (s1.cursor scr) := ⟨by omega, by omega⟩
    have h2 := h1.2.trans (setCell_repaints hin s1 (UInt32.ofNat 0xFFFD ||| s1.attr)).sameInput
    unfold putNormal
    simp only [← hs1]
    split <;> exact h2.trans ⟨rfl, rfl, rfl⟩
  unfold endCharacter
  have hswitch : switchCharacter scr s 0xFFFD = putNormal scr s (UInt32.ofNat 0xFFFD) := rfl
  simp only
  split
  · exact hnormal.trans ⟨rfl, rfl, rfl⟩
  · exact hnormal

theorem putCharacter_replacement (h : ConInv scr s) :
    SameInput s (putCharacter scr s 0xFFFD) ∨
      escBufferSize < s.escSize + 2 ∧ (putCharacter scr s 0xFFFD).escSize = 0 ∧
        (putCharacter scr s 0xFFFD).utf8State = s.utf8State := by
  have hput : putCharacter scr s 0xFFFD = if s.escSize = 0 then endCharacter scr s 0xFFFD
      else if s.escSize + 2 > escBufferSize then endCharacter scr (clearEsc s) 0xFFFD
      else endCharacter scr s 0xFFFD := by
    unfold putCharacter
    simp
  rw [hput]
  split
  · exact .inl (endCharacter_sameInput h)
  split
  · rename_i hlong
    have hend := endCharacter_sameInput (clearEsc_inv h)
    exact .inr ⟨hlong, hend.size, hend.utf8⟩
  · exact .inl (endCharacter_sameInput h)

theorem Meets.congr (hs : s'.escSize = s.escSize) (hb : s'.escBuffer = s.escBuffer)
    (h : Meets s) : Meets s' := by
  intro hcsi htype ps hps
  unfold ConState.csi at hcsi
  unfold ConState.escType at htype
  unfold parseParameters ConState.escType ConState.csiQuestion at hps
  rw [hs, hb] at *
  exact h hcsi htype ps hps

variable {byte : UInt8}

theorem Fits.congr (hs : s'.escSize = s.escSize) (hb : s'.escBuffer = s.escBuffer)
    (h : Fits s byte) : Fits s' byte := by
  intro hm h0 hroom
  rw [hs] at h0 hroom
  refine (h hm h0 hroom).congr ?_ ?_
  · simp [appendEsc_size, hs]
  · rw [appendEsc_buffer, appendEsc_buffer, hs, hb]

theorem writeRound_inv (h : ConInv scr s) (hfit : Fits s byte) :
    ConInv scr (writeRound scr s byte).1 ∧ ((writeRound scr s byte).2 = true →
        Fits (writeRound scr s byte).1 byte ∧
          (writeRound scr (writeRound scr s byte).1 byte).2 = false) := by
  obtain ⟨state, hstate⟩ : ∃ state, state = (utf8Decode s.utf8State byte.toNat).2 := ⟨_, rfl⟩
  have hok : Utf8Ok state := hstate ▸ utf8Decode_ok h.utf8 _
  have hdec : ConInv scr { s with utf8State := state } :=
    ⟨h.cursor, h.region, h.saved, h.mainSaved, h.mainRegion, h.esc, hok, h.fault⟩
  have hdecfit : Fits { s with utf8State := state } byte := hfit.congr (s := s) rfl rfl
  have hput := putCharacter_inv (c := 0xFFFD) hdec (fun hm => absurd hm (by decide))
  by_cases h0 : byte = 0
  · unfold writeRound
    rw [if_pos h0]
    exact ⟨h, nofun⟩
  cases hu : (utf8Decode s.utf8State byte.toNat).1 with
  | waitingNext =>
    have heq : writeRound scr s byte = ({ s with utf8State := state }, false) := by
      unfold writeRound
      simp only [h0, if_false, hu, ← hstate]
    rw [heq]
    exact ⟨hdec, nofun⟩
  | errorConsume =>
    have heq : writeRound scr s byte =
        (putCharacter scr { s with utf8State := state } 0xFFFD, false) := by
      unfold writeRound
      simp only [h0, if_false, hu, ← hstate]
    rw [heq]
    exact ⟨hput, nofun⟩
  | value c =>
    have heq : writeRound scr s byte = (putCharacter scr { s with utf8State := state }
        (if c > 0xFFFFF then 0xFFFD else c), false) := by
      unfold writeRound
      simp only [h0, if_false, hu, ← hstate]
    rw [heq]
    refine ⟨putCharacter_inv hdec fun hm => ?_, nofun⟩
    have hc : c = 0x6D := by
      split at hm <;> omega
    have hbyte : byte = 0x6D := by
      have hlow := utf8Decode_low h.utf8 (by decide) (hc ▸ hu)
      exact UInt8.toNat_inj.mp hlow
    exact hbyte ▸ hdecfit
  | errorRetry =>
    have heq : writeRound scr s byte =
        (putCharacter scr { s with utf8State := state } 0xFFFD, true) := by
      unfold writeRound
      simp only [h0, if_false, hu, ← hstate]
    obtain ⟨hzero, hnot⟩ := utf8Decode_again hu
    rw [heq]
    refine ⟨hput, fun _ => ⟨?_, ?_⟩⟩
    · rcases putCharacter_replacement hdec with hsame | ⟨-, hsize, -⟩
      · exact hdecfit.congr hsame.size hsame.buffer
      · exact fun _ hne => absurd hsize hne
    have hutf8 : (putCharacter scr { s with utf8State := state } 0xFFFD).utf8State = 0 := by
      rcases putCharacter_replacement hdec with hsame | ⟨-, -, hsame⟩
      · exact hsame.utf8.trans (hstate.trans hzero)
      · exact hsame.trans (hstate.trans hzero)
    unfold writeRound
    simp only [h0, if_false, hutf8]
    split
    · rfl
    · rename_i hagain
      exact absurd hagain hnot
    · rfl
    · rfl

theorem writeByte_inv (h : ConInv scr s) (hfit : Fits s byte) :
    ConInv scr (writeByte scr s byte) := by
  obtain ⟨hround, hagain⟩ := writeRound_inv h hfit
  unfold writeByte
  simp only
  split
  · rename_i htrue
    exact (writeRound_inv hround (hagain htrue).1).1
  · exact hround

theorem startWrite_inv (h : ConInv scr s) : ConInv scr (startWrite scr s) := by
  obtain ⟨h0, hle, hend, hcells, -, -⟩ := h.cursor.cursor_bounds
  have hin : Inside scr (s.cursor scr) := ⟨by omega, by omega⟩
  exact .ite (h.repaints (setCell_repaints hin s _)) h

/-! ## Writes -/

/-- The bytes of a write fit one after another. -/
def FitAll (scr : Screen) : List UInt8 → ConState → Prop
  | [], _ => True
  | byte :: data, s => Fits s byte ∧ FitAll scr data (writeByte scr s byte)

theorem writeLoop_cons (fuel : Nat) (byte : UInt8) (data : List UInt8) (s : ConState) :
    writeLoop scr (fuel + 1) (byte :: data) s =
      writeLoop scr fuel (if (writeRound scr s byte).2 then byte :: data else data)
        (writeRound scr s byte).1 := rfl

theorem writeByte_once (h : (writeRound scr s byte).2 = false) :
    writeByte scr s byte = (writeRound scr s byte).1 := by
  unfold writeByte
  simp only [h, Bool.false_eq_true, if_false]

theorem writeByte_twice (h : (writeRound scr s byte).2 = true) :
    writeByte scr s byte = (writeRound scr (writeRound scr s byte).1 byte).1 := by
  unfold writeByte
  simp only [h, if_true]

theorem writeLoop_eq (data : List UInt8) : ∀ {s : ConState} {fuel : Nat}, ConInv scr s →
    FitAll scr data s → 2 * data.length ≤ fuel →
      writeLoop scr fuel data s = some (data.foldl (writeByte scr) s) := by
  induction data with
  | nil =>
    intro s fuel _ _ _
    cases fuel <;> rfl
  | cons byte data ih =>
    intro s fuel h hfit hfuel
    rw [List.length_cons] at hfuel
    obtain ⟨fuel, rfl⟩ : ∃ n, fuel = n + 1 + 1 := ⟨fuel - 2, by omega⟩
    obtain ⟨hround, hagain⟩ := writeRound_inv h hfit.1
    have hinv := writeByte_inv h hfit.1
    rw [List.foldl_cons, writeLoop_cons]
    by_cases htwo : (writeRound scr s byte).2 = true
    · obtain ⟨-, hone⟩ := hagain htwo
      rw [if_pos htwo, writeLoop_cons, if_neg (by simp [hone]), ← writeByte_twice htwo]
      exact ih hinv hfit.2 (by omega)
    · rw [if_neg htwo, ← writeByte_once (Bool.eq_false_iff.mpr htwo)]
      exact ih hinv hfit.2 (by omega)

/-- What happens to a console: a write begins, or the next byte of it is
taken. -/
inductive Input where
  | start
  | byte (c : UInt8)

def takeInput (scr : Screen) (s : ConState) : Input → ConState
  | .start => startWrite scr s
  | .byte c => writeByte scr s c

def inputStep (scr : Screen) (s : ConState) (a : Input) (s' : ConState) : Prop :=
  s' = takeInput scr s a

def Input.Fits (s : ConState) : Input → Prop
  | .start => True
  | .byte c => Console.Fits s c

theorem initialState_inv (scr : Screen) : ConInv scr (initialState scr) := conInitVariables_inv rfl

theorem inv_of_run {as : List Input}
    (hrun : Run (Guarded Input.Fits (inputStep scr)) (initialState scr) as s) : ConInv scr s := by
  refine hrun.invariant (fun s a s' h hstep => ?_) (initialState_inv scr)
  obtain ⟨hfit, hstep⟩ := hstep
  rw [hstep]
  cases a with
  | start => exact startWrite_inv h
  | byte c => exact writeByte_inv h hfit

theorem conWriteLocked_eq (h : ConInv scr s) {data : List UInt8}
    (hfit : FitAll scr data (startWrite scr s)) :
    conWriteLocked scr s data (2 * data.length) =
      some (data.foldl (writeByte scr) (startWrite scr s)) :=
  writeLoop_eq data (startWrite_inv h) hfit le_rfl

/-- The bounds after every byte of every write. -/
theorem bounds_of_run {as : List Input}
    (hrun : Run (Guarded Input.Fits (inputStep scr)) (initialState scr) as s) :
    (0 ≤ s.x ∧ s.x < scr.columns) ∧ (0 ≤ s.y ∧ s.y < scr.rows) ∧
      (0 ≤ s.scrollFirst ∧ s.scrollFirst ≤ s.scrollLast ∧ s.scrollLast < scr.rows) ∧
      s.escSize ≤ escBufferSize ∧ s.fault = false ∧
      (∀ byte, Fits s byte → (writeRound scr s byte).2 = true →
        (writeRound scr (writeRound scr s byte).1 byte).2 = false) ∧
      ∀ data, FitAll scr data (startWrite scr s) → conWriteLocked scr s data (2 * data.length) =
          some (data.foldl (writeByte scr) (startWrite scr s)) := by
  have h := inv_of_run hrun
  exact ⟨⟨h.cursor.x_ge, h.cursor.x_lt⟩, ⟨h.cursor.y_ge, h.cursor.y_lt⟩,
    ⟨h.region.first_ge, h.region.first_le, h.region.last_lt⟩, le_of_lt h.esc, h.fault,
    fun byte hfit hagain => ((writeRound_inv h hfit).2 hagain).2,
    fun data hfit => conWriteLocked_eq h hfit⟩

def smallScreen : Screen := ⟨70, 25, by decide, by decide, by decide⟩

example : conInit 700 480 10 19 = some smallScreen := rfl

def plainSgr : List Input := [.start, .byte 0x1B, .byte 0x5B, .byte 0x6D]

def plainSgrState (n : Nat) : ConState :=
  (plainSgr.take n).foldl (takeInput smallScreen) (initialState smallScreen)

theorem plainSgr_run : Run (Guarded Input.Fits (inputStep smallScreen)) (initialState smallScreen)
    plainSgr (plainSgrState 4) := by
  have h1 : Run (Guarded Input.Fits (inputStep smallScreen)) (initialState smallScreen)
      [.start] (plainSgrState 1) := .single ⟨trivial, rfl⟩
  have h2 : Run (Guarded Input.Fits (inputStep smallScreen)) (initialState smallScreen)
      [.start, .byte 0x1B] (plainSgrState 2) :=
    .snoc h1 ⟨fun h => absurd h (by decide), rfl⟩
  have h3 : Run (Guarded Input.Fits (inputStep smallScreen)) (initialState smallScreen)
      [.start, .byte 0x1B, .byte 0x5B] (plainSgrState 3) :=
    .snoc h2 ⟨fun h => absurd h (by decide), rfl⟩
  refine .snoc h3 ⟨fun _ _ _ _ _ ps hps => ?_, rfl⟩
  have hparse : parseParameters (appendEsc (plainSgrState 3) 0x6D) = .parameters [] := by
    decide +kernel
  have hnone : ps = [] := (Parsed.parameters.inj (hparse.symm.trans hps)).symm
  rintro ⟨i, hi, -⟩
  rw [hnone] at hi
  cases hi

theorem bounds_of_run_sgr : (plainSgrState 4).fault = false :=
  (bounds_of_run plainSgr_run).2.2.2.2.1

def lateSgr : List UInt8 :=
  [0x1B, 0x5B] ++ List.replicate 11 0x3B ++ [0x33, 0x38, 0x3B, 0x32, 0x6D]

/-- An access is out of bounds. -/
theorem late_color_faults :
    ¬ ∀ (scr : Screen) (as : List Input) (s : ConState),
      Run (inputStep scr) (initialState scr) as s → s.fault = false := by
  intro h
  have hrun := Run.foldl (takeInput smallScreen) (Input.start :: lateSgr.map .byte)
    (initialState smallScreen)
  exact absurd (h smallScreen _ _ hrun) (by decide +kernel)

end Dancy.Console
