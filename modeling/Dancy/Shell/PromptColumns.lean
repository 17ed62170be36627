import Dancy.Shell.Prompt

/-!
# The columns of the line editor

What `render` counts and writes for a line of whole characters. A line that is
too long for the window is scrolled: characters at its ends are left out, and
marks stand in their places.
-/

namespace Dancy.Shell.Prompt

open Dancy.Lib Option
open List hiding utf8Encode
open Dancy.Common (Scalar utf8Encode)

variable {st : State} {l r rest conts : List UInt8} {c lead : UInt8} {us vs : List Nat} {u : Nat}

def encode (us : List Nat) : List UInt8 := us.flatMap utf8Encode

def Plain (u : Nat) : Prop := Scalar u ∧ u ≠ 0

def Narrow (u : Nat) : Prop := Plain u ∧ u < 0x10000

/-! ## The bytes of a character -/

/-- A first byte tells how many bytes continue its character. -/
def Starts (lead : UInt8) (u n : Nat) : Prop :=
  (n = 0 ∧ u < 0x80 ∧ lead.toNat = u) ∨
    (n = 1 ∧ 0x80 ≤ u ∧ u < 0x800 ∧ 0xC0 ≤ lead.toNat ∧ lead.toNat < 0xE0) ∨
    (n = 2 ∧ 0x800 ≤ u ∧ u < 0x10000 ∧ 0xE0 ≤ lead.toNat ∧ lead.toNat < 0xF0) ∨
    (n = 3 ∧ 0x10000 ≤ u ∧ 0xF0 ≤ lead.toNat ∧ lead.toNat < 0xF8)

theorem continues_ofNat {x : Nat} (h : x < 64) : continues (UInt8.ofNat (0x80 + x)) = true := by
  rw [continues_iff, Common.toNat_ofNat_small (by omega)]
  omega

theorem encode_shape (hs : Scalar u) : ∃ lead conts, utf8Encode u = lead :: conts ∧
    (∀ c ∈ conts, continues c = true) ∧ Starts lead u conts.length := by
  obtain ⟨hmax, hsurrogate⟩ := hs
  have hlow : ∀ x : Nat, x &&& 0x3F < 64 := fun x => by rw [Common.and_0x3F]; omega
  unfold utf8Encode
  by_cases h1 : u ≤ 0x7F
  · rw [if_pos h1]
    refine ⟨_, [], rfl, by simp, Or.inl ⟨rfl, by omega, Common.toNat_ofNat_small (by omega)⟩⟩
  rw [if_neg h1]
  by_cases h2 : u ≤ 0x07FF
  · rw [if_pos h2, Nat.shiftRight_eq_div_pow]
    refine ⟨_, _, rfl, forall_mem_singleton.mpr (continues_ofNat (hlow u)),
      Or.inr (Or.inl ?_)⟩
    rw [Common.toNat_ofNat_small (by omega)]
    refine ⟨rfl, ?_⟩
    omega
  rw [if_neg h2, if_neg hsurrogate]
  by_cases h3 : u ≤ 0xFFFF
  · rw [if_pos h3, Nat.shiftRight_eq_div_pow u 12]
    refine ⟨_, _, rfl, ?_, Or.inr (Or.inr (Or.inl ?_))⟩
    · exact forall_mem_cons.mpr ⟨continues_ofNat (hlow _),
        forall_mem_singleton.mpr (continues_ofNat (hlow u))⟩
    · rw [Common.toNat_ofNat_small (by omega)]
      refine ⟨rfl, ?_⟩
      omega
  · rw [if_neg h3, if_pos hmax, Nat.shiftRight_eq_div_pow u 18]
    refine ⟨_, _, rfl, ?_, Or.inr (Or.inr (Or.inr ?_))⟩
    · exact forall_mem_cons.mpr ⟨continues_ofNat (hlow _), forall_mem_cons.mpr
        ⟨continues_ofNat (hlow _), forall_mem_singleton.mpr (continues_ofNat (hlow u))⟩⟩
    · rw [Common.toNat_ofNat_small (by omega)]
      refine ⟨rfl, ?_⟩
      omega

theorem Starts.leads {n : Nat} (h : Starts lead u n) : continues lead = false := by
  refine not_continues ?_
  rcases h with h | h | h | h <;> omega

theorem piece_encode (hu : Plain u) : Piece (utf8Encode u) := by
  obtain ⟨lead, conts, heq, hconts, hstarts⟩ := encode_shape hu.1
  rw [heq]
  refine ⟨hstarts.leads, hconts, cons_ne_nil _ _, fun c hc => ?_⟩
  rcases mem_cons.mp hc with rfl | hc
  · rintro rfl
    have hne := hu.2
    have hzero : (0 : UInt8).toNat = 0 := rfl
    rcases hstarts with h | h | h | h <;> omega
  · exact nonzero_of_continues (hconts c hc)

theorem encode_cons (u : Nat) (us : List Nat) : encode (u :: us) = utf8Encode u ++ encode us := rfl

theorem encode_append (us vs : List Nat) : encode (us ++ vs) = encode us ++ encode vs :=
  flatMap_append

theorem leads_encode (hus : ∀ u ∈ us, Plain u) (hrest : Leads rest) : Leads (encode us ++ rest) := by
  cases us with
  | nil => exact hrest
  | cons u us =>
    obtain ⟨lead, conts, heq, -, hstarts⟩ := encode_shape (hus u mem_cons_self).1
    rw [encode_cons, heq]
    exact hstarts.leads

theorem masks (c : UInt8) : (c.toNat &&& 0x80 = 0 ↔ c.toNat < 0x80) ∧
    (c.toNat &&& 0xE0 = 0xC0 ↔ 0xC0 ≤ c.toNat ∧ c.toNat < 0xE0) ∧
    (c.toNat &&& 0xF0 = 0xE0 ↔ 0xE0 ≤ c.toNat ∧ c.toNat < 0xF0) ∧
    (c.toNat &&& 0xF8 = 0xF0 ↔ 0xF0 ≤ c.toNat ∧ c.toNat < 0xF8) := by
  have hall : ∀ n < 256, (n &&& 0x80 = 0 ↔ n < 0x80) ∧
      (n &&& 0xE0 = 0xC0 ↔ 0xC0 ≤ n ∧ n < 0xE0) ∧ (n &&& 0xF0 = 0xE0 ↔ 0xE0 ≤ n ∧ n < 0xF0) ∧
      (n &&& 0xF8 = 0xF0 ↔ 0xF0 ≤ n ∧ n < 0xF8) := by decide +kernel
  exact hall c.toNat c.toNat_lt

theorem countLoop_conts (conts : List UInt8) : ∀ {n : Nat},
    (∀ c ∈ conts, continues c = true) → conts ≠ [] →
      countLoop (conts ++ rest) conts.length n = countLoop rest 0 (n + 1) := by
  induction conts with
  | nil => simp
  | cons c conts ih =>
    intro n hconts _
    have hc := (continues_iff c).mp (hconts c mem_cons_self)
    obtain ⟨hascii, -⟩ := masks c
    rw [cons_append, countLoop, if_neg (by omega),
      if_pos (by rw [length_cons]; omega), length_cons, Nat.add_sub_cancel]
    cases conts with
    | nil => rfl
    | cons d conts =>
      exact ih (fun x hx => hconts x (.tail c hx)) (cons_ne_nil _ _)

theorem countLoop_char (hu : Narrow u) (n : Nat) :
    countLoop (utf8Encode u ++ rest) 0 n = countLoop rest 0 (n + 1) := by
  obtain ⟨lead, conts, heq, hconts, hstarts⟩ := encode_shape hu.1.1
  have hsmall := hu.2
  obtain ⟨hascii, htwo, hthree, -⟩ := masks lead
  rw [heq, cons_append, countLoop]
  rcases hstarts with ⟨hlen, hstarts⟩ | ⟨hlen, hstarts⟩ | ⟨hlen, hstarts⟩ | ⟨hlen, hstarts⟩
  · rw [if_pos (by omega), eq_nil_of_length_eq_zero hlen]
    rfl
  · rw [if_neg (by omega), if_neg (by omega), if_pos (by omega)]
    have hloop := (@countLoop_conts rest) conts (n := n) hconts (by rintro rfl; simp at hlen)
    rwa [hlen] at hloop
  · rw [if_neg (by omega), if_neg (by omega), if_neg (by rw [htwo]; omega), if_pos (by omega)]
    have hloop := (@countLoop_conts rest) conts (n := n) hconts (by rintro rfl; simp at hlen)
    rwa [hlen] at hloop
  · omega

theorem countColumns_encode (hus : ∀ u ∈ us, Narrow u) : countColumns (encode us) = us.length := by
  have hgen : ∀ (us : List Nat) (n : Nat), (∀ u ∈ us, Narrow u) →
      countLoop (encode us) 0 n = n + us.length := by
    intro us
    induction us with
    | nil => exact fun _ _ => rfl
    | cons u us ih =>
      intro n hus
      rw [encode_cons, countLoop_char (hus u mem_cons_self),
        ih _ fun v hv => hus v (.tail u hv), length_cons]
      omega
  rw [countColumns, hgen us 0 hus, zero_add]

/-- The characters left of the cursor that are shown. -/
def shownLeft (columnsMax left right : Int) : Int :=
  min left (max (columnsMax / 2) (columnsMax - right))

/-- The characters right of the cursor that are shown. -/
def shownRight (columnsMax left right : Int) : Int :=
  min right (columnsMax - shownLeft columnsMax left right)

theorem trimLoop_eq {columnsMax : Int} (hmax : 0 ≤ columnsMax) (rounds : Nat) :
    ∀ {left right : Int} {a b : Nat}, 0 ≤ left → 0 ≤ right → left + right - columnsMax ≤ rounds →
      trimLoop columnsMax rounds ⟨left, right, a, b⟩ =
        ⟨shownLeft columnsMax left right, shownRight columnsMax left right,
          a + (left - shownLeft columnsMax left right).toNat,
          b + (right - shownRight columnsMax left right).toNat⟩ := by
  induction rounds with
  | zero =>
    intro left right a b hl hr hrounds
    rw [trimLoop, Trim.mk.injEq]
    unfold shownRight shownLeft
    omega
  | succ rounds ih =>
    intro left right a b hl hr hrounds
    rw [trimLoop]
    dsimp only
    by_cases hfits : left + right > columnsMax
    · rw [if_pos hfits]
      by_cases hleft : left > columnsMax / 2
      · rw [if_pos hleft, ih (by omega) hr (by omega), Trim.mk.injEq]
        unfold shownRight shownLeft
        omega
      · rw [if_neg hleft, if_pos (by omega), ih hl (by omega) (by omega), Trim.mk.injEq]
        unfold shownRight shownLeft
        omega
    · rw [if_neg hfits, Trim.mk.injEq]
      unfold shownRight shownLeft
      omega

theorem trim_encode (h : Line st (encode us) (encode vs)) (hus : ∀ u ∈ us, Narrow u)
    (hvs : ∀ v ∈ vs, Narrow v) (hmax : 0 ≤ st.columnsMax) :
    st.trim =
      ⟨shownLeft st.columnsMax us.length vs.length, shownRight st.columnsMax us.length vs.length,
        (us.length - shownLeft st.columnsMax us.length vs.length).toNat,
        (vs.length - shownRight st.columnsMax us.length vs.length).toNat⟩ := by
  have hall : ∀ u ∈ us ++ vs, Narrow u := fun u hu =>
    (mem_append.mp hu).elim (hus u) (hvs u)
  have hleft : ((us ++ vs).length : Int) - vs.length = us.length := by
    rw [length_append]
    omega
  rw [State.trim, h.text_right, h.text_all, ← encode_append, countColumns_encode hvs,
    countColumns_encode hall, hleft, trimLoop_eq hmax _ (by omega) (by omega) (by omega), zero_add, zero_add]

/-! ## The line that is written -/

theorem skipLoop_conts (hrest : Leads rest) (count : Nat) (conts : List UInt8) : ∀ {c : UInt8},
    (∀ x ∈ conts, continues x = true) →
      skipLoop (c :: (conts ++ rest)) (count + 1) = skipLoop rest count := by
  induction conts with
  | nil =>
    intro c _
    rw [nil_append, skipLoop, hrest, if_neg Bool.false_ne_true]
  | cons x conts ih =>
    intro c hconts
    rw [cons_append, skipLoop, headD_cons, if_pos (hconts x mem_cons_self)]
    exact ih fun y hy => hconts y (.tail x hy)

theorem skipLoop_encode (hrest : Leads rest) (us : List Nat) : ∀ {n : Nat},
    (∀ u ∈ us, Plain u) → n ≤ us.length →
      skipLoop (encode us ++ rest) n = encode (us.drop n) ++ rest := by
  induction us with
  | nil =>
    intro n _ hn
    obtain rfl : n = 0 := by simpa using hn
    cases rest with
    | nil | cons => rfl
  | cons u us ih =>
    intro n hus hn
    cases n with
    | zero => rw [skipLoop, drop_zero]
    | succ n =>
      have htail : ∀ v ∈ us, Plain v := fun v hv => hus v (.tail u hv)
      obtain ⟨lead, conts, heq, hconts, -⟩ := encode_shape (hus u mem_cons_self).1
      rw [encode_cons, heq, append_assoc, cons_append,
        skipLoop_conts (leads_encode htail hrest) n conts hconts,
        ih htail (by simpa using hn), drop_succ_cons]

variable {line line' : List UInt8}

theorem lineAdd_none {input : List UInt8} (h : lineAdd line input none = some line') :
    line' = line ++ input := by
  have hgen : ∀ (input line : List UInt8) (i : Int), lineLoop none input i line = some line' →
      line' = line ++ input := by
    intro input
    induction input with
    | nil =>
      intro line i h
      rw [append_nil]
      exact (some.inj h).symm
    | cons c cs ih =>
      intro line i h
      rw [lineLoop] at h
      by_cases hfull : line.length ≥ 1024
      · rw [if_pos hfull] at h
        cases h
      · rw [if_neg hfull] at h
        have := ih _ _ (by simpa using h)
        rwa [append_assoc, singleton_append] at this
  exact hgen input line 0 h

theorem lineLoop_conts {count i : Int} (hi : i ≤ count) (conts : List UInt8) :
    ∀ {line : List UInt8}, (∀ c ∈ conts, continues c = true) →
      lineLoop (some count) (conts ++ rest) i line = some line' →
        lineLoop (some count) rest i (line ++ conts) = some line' := by
  induction conts with
  | nil =>
    intro line _ h
    rwa [append_nil]
  | cons c conts ih =>
    intro line hconts h
    rw [cons_append, lineLoop] at h
    by_cases hfull : line.length ≥ 1024
    · rw [if_pos hfull] at h
      cases h
    · rw [if_neg hfull] at h
      rw [if_pos (hconts c mem_cons_self), if_neg (by simpa using hi)] at h
      have := ih (fun x hx => hconts x (.tail c hx)) h
      rwa [append_assoc, singleton_append] at this

theorem lineLoop_encode {count : Int} (hrest : Leads rest) (us : List Nat) :
    ∀ {i : Int} {line : List UInt8}, (∀ u ∈ us, Plain u) → i + us.length = count →
      lineLoop (some count) (encode us ++ rest) i line = some line' → line' = line ++ encode us := by
  induction us with
  | nil =>
    intro i line _ hi h
    have hstop : lineLoop (some count) rest i line = some line' := h
    change line' = line ++ []
    rw [append_nil]
    cases rest with
    | nil => exact (some.inj hstop).symm
    | cons c cs =>
      rw [lineLoop] at hstop
      by_cases hfull : line.length ≥ 1024
      · rw [if_pos hfull] at hstop
        cases hstop
      rw [if_neg hfull] at hstop
      have hc : continues c = false := hrest
      have hi' : i = count := by simpa using hi
      rw [hc, if_neg Bool.false_ne_true, if_pos (by simp [hi'])] at hstop
      exact (some.inj hstop).symm
  | cons u us ih =>
    intro i line hus hi h
    obtain ⟨lead, conts, heq, hconts, hstarts⟩ := encode_shape (hus u mem_cons_self).1
    rw [length_cons] at hi
    rw [encode_cons, heq, append_assoc, cons_append, lineLoop] at h
    by_cases hfull : line.length ≥ 1024
    · rw [if_pos hfull] at h
      cases h
    rw [if_neg hfull] at h
    rw [hstarts.leads, if_neg Bool.false_ne_true, if_neg (by simp; omega)] at h
    have hchar := lineLoop_conts (by omega) conts hconts h
    rw [encode_cons, heq, ih (fun v hv => hus v (.tail u hv)) (by omega) hchar]
    simp only [append_assoc, cons_append, nil_append]

/-- The prompt and what is shown of the line, with marks where it goes on. -/
def window (st : State) (us vs : List Nat) : List UInt8 :=
  let left := (shownLeft st.columnsMax us.length vs.length).toNat
  let right := (shownRight st.columnsMax us.length vs.length).toNat
  newLine ++ st.prompt ++ (if left < us.length then markLeft else []) ++
    encode (us.drop (us.length - left)) ++ encode (vs.take right) ++
    (if right < vs.length then markRight else []) ++ cursorTo (st.promptOffset + 1 + left)

/-- The line that is written, for the characters that there is room for. -/
theorem line_encode (h : Line st (encode us) (encode vs)) (hus : ∀ u ∈ us, Plain u)
    (hvs : ∀ v ∈ vs, Plain v) {left right : Nat} (hleft : left ≤ us.length)
    (hright : right ≤ vs.length) {column : Int}
    (hline : st.line ⟨left, right, us.length - left, vs.length - right⟩ column = some line) :
    line = newLine ++ st.prompt ++ (if left < us.length then markLeft else []) ++
      encode (us.drop (us.length - left)) ++ encode (vs.take right) ++
      (if right < vs.length then markRight else []) ++ cursorTo column := by
  have hmark : ∀ {n k : Nat} {line line' mark : List UInt8},
      (if k - n ≠ 0 then lineAdd line mark none else some line) = some line' →
        line' = line ++ if n < k then mark else [] := by
    intro n k line line' mark hadd
    by_cases hn : n < k
    · rw [if_pos (by omega)] at hadd
      rw [if_pos hn]
      exact lineAdd_none hadd
    · rw [if_neg (by omega)] at hadd
      rw [if_neg hn, append_nil]
      exact (some.inj hadd).symm
  have hleads : Leads (encode vs) := by
    have := @leads_encode [] _ hvs rfl
    rwa [append_nil] at this
  simp only [State.line, Option.bind_eq_some_iff] at hline
  obtain ⟨line1, hnew, line2, hprompt, line3, hmarkl, line4, haddl, line5, haddr, line6, hmarkr,
    hcursor⟩ := hline
  rw [h.text_all, skipLoop_encode hleads us hus (by omega)] at haddl
  have hl := lineLoop_encode hleads (us.drop (us.length - left))
    (fun u hu => hus u (mem_of_mem_drop hu)) (by rw [length_drop]; omega) haddl
  have hsplit : encode vs = encode (vs.take right) ++ encode (vs.drop right) := by
    rw [← encode_append, take_append_drop]
  have hrest : Leads (encode (vs.drop right)) := by
    have := @leads_encode [] (vs.drop right)
      (fun v hv => hvs v (mem_of_mem_drop hv)) rfl
    rwa [append_nil] at this
  rw [h.text_right, hsplit] at haddr
  have hr := lineLoop_encode hrest (vs.take right) (fun v hv => hvs v (mem_of_mem_take hv))
    (by rw [length_take]; omega) haddr
  rw [lineAdd_none hcursor, hmark hmarkr, hr, hl, hmark hmarkl, lineAdd_none hprompt,
    lineAdd_none hnew, nil_append]

theorem render_encode (h : Line st (encode us) (encode vs)) (hus : ∀ u ∈ us, Narrow u)
    (hvs : ∀ v ∈ vs, Narrow v) {column : Int} (hrender : (render st).2 = .emitted column line) :
    column = st.promptOffset + 1 + shownLeft st.columnsMax us.length vs.length ∧
      line = window st us vs := by
  rw [render] at hrender
  by_cases hskip : st.skipRender > 0
  · rw [if_pos hskip] at hrender
    exact Rendered.noConfusion hrender
  rw [if_neg hskip] at hrender
  by_cases hnarrow : st.columnsMax < 8
  · rw [if_pos hnarrow] at hrender
    exact Rendered.noConfusion hrender
  rw [if_neg hnarrow, trim_encode h hus hvs (by omega)] at hrender
  dsimp only at hrender
  cases hline : st.line ⟨shownLeft st.columnsMax us.length vs.length,
      shownRight st.columnsMax us.length vs.length,
      (us.length - shownLeft st.columnsMax us.length vs.length).toNat,
      (vs.length - shownRight st.columnsMax us.length vs.length).toNat⟩
      (st.promptOffset + 1 + shownLeft st.columnsMax us.length vs.length) with
  | none =>
    rw [hline] at hrender
    exact Rendered.noConfusion hrender
  | some line' =>
    rw [hline] at hrender
    obtain ⟨rfl, rfl⟩ := Rendered.emitted.inj hrender
    have hbounds : 0 ≤ shownLeft st.columnsMax us.length vs.length ∧
        shownLeft st.columnsMax us.length vs.length ≤ us.length ∧
        0 ≤ shownRight st.columnsMax us.length vs.length ∧
        shownRight st.columnsMax us.length vs.length ≤ vs.length := by
      unfold shownRight shownLeft
      omega
    refine ⟨rfl, ?_⟩
    rw [window]
    generalize shownLeft st.columnsMax us.length vs.length = left at hbounds hline ⊢
    generalize shownRight st.columnsMax us.length vs.length = right at hbounds hline ⊢
    obtain ⟨left, rfl⟩ := Int.eq_ofNat_of_zero_le hbounds.1
    obtain ⟨right, rfl⟩ := Int.eq_ofNat_of_zero_le hbounds.2.2.1
    rw [show ((us.length : Int) - left).toNat = us.length - left by omega,
      show ((vs.length : Int) - right).toNat = vs.length - right by omega] at hline
    exact line_encode h (fun u hu => (hus u hu).1) (fun v hv => (hvs v hv).1) (by omega)
      (by omega) hline

end Dancy.Shell.Prompt
