import Dancy.Libc.Strtod

/-!
# `strtod` against the C standard

The words, the numerals and the sign, each with the longest prefix that the
standard accepts and the end that the code has.
-/

namespace Dancy.Libc

open List

variable {c : UInt8} {s t v w r : List UInt8} {n p : Nat}

def wordLetters : List UInt8 := [73, 78, 70, 84, 89, 65]

theorem caseInsensitive_letter {d : UInt8} (hd : d ∈ wordLetters) (c : UInt8) :
    caseInsensitive c = caseInsensitive d ↔ toupper c = d := by
  simp only [wordLetters, mem_cons, not_mem_nil, or_false] at hd
  revert c
  rcases hd with rfl | rfl | rfl | rfl | rfl | rfl
  all_goals exact forall_byte (by decide +kernel)

theorem caseInsensitive_ne_zero {d : UInt8} (hd : d ∈ wordLetters) : caseInsensitive d ≠ 0 := by
  simp only [wordLetters, mem_cons, not_mem_nil, or_false] at hd
  rcases hd with rfl | rfl | rfl | rfl | rfl | rfl
  all_goals decide

theorem strncasecmp_word : ∀ (n : Nat) (s w : List UInt8), n ≤ w.length →
    (∀ d ∈ w, d ∈ wordLetters) → (strncasecmp s w n = 0 ↔ (s.take n).map toupper = w.take n) := by
  intro n
  induction n with
  | zero =>
    simp [strncasecmp]
  | succ n ih =>
    intro s w hn hw
    cases w with
    | nil => cases hn
    | cons d w =>
      have hd := hw d mem_cons_self
      have hzero := caseInsensitive_ne_zero hd
      have hrest := fun s => ih s w (Nat.le_of_succ_le_succ hn)
        (fun e he => hw e (.tail d he))
      rw [strncasecmp]
      rw [show (d :: w).getD 0 0 = d from rfl, drop_succ_cons, drop_zero]
      by_cases heq : caseInsensitive (s.getD 0 0) = caseInsensitive d
      · have hloop : (if n = 0 ∨ caseInsensitive (s.getD 0 0) = 0 ∨
            caseInsensitive (s.getD 0 0) ≠ caseInsensitive d then
            if caseInsensitive (s.getD 0 0) = 0 ∧ caseInsensitive d = 0 then 0
            else if caseInsensitive (s.getD 0 0) < caseInsensitive d then -1
            else if caseInsensitive (s.getD 0 0) > caseInsensitive d then 1
            else strncasecmp (s.drop 1) w n
          else strncasecmp (s.drop 1) w n) = strncasecmp (s.drop 1) w n := by
          have hno : ¬ (caseInsensitive d = 0 ∧ caseInsensitive d = 0) := fun h => hzero h.1
          rw [heq, if_neg hno, if_neg (UInt8.lt_irrefl (caseInsensitive d)),
            if_neg (UInt8.lt_irrefl (caseInsensitive d)), ite_self]
        rw [hloop, hrest]
        cases s with
        | nil =>
          rw [caseInsensitive_letter hd] at heq
          exact absurd (heq ▸ hd) (by decide)
        | cons c s =>
          have hc := (caseInsensitive_letter hd c).mp heq
          simp [hc]
      · rw [if_pos (Or.inr (Or.inr heq)), if_neg (fun h => hzero h.2)]
        have hne : ((s.take (n + 1)).map toupper = (d :: w).take (n + 1)) = False := by
          refine eq_false fun h => heq ?_
          cases s with
          | nil => cases h
          | cons c s =>
            exact (caseInsensitive_letter hd c).mpr (cons.inj h).1
        rw [hne, iff_false]
        by_cases hlt : caseInsensitive (s.getD 0 0) < caseInsensitive d
        · rw [if_pos hlt]
          decide
        have hgt : caseInsensitive (s.getD 0 0) > caseInsensitive d := by
          rcases UInt8.lt_or_eq_of_le (UInt8.not_lt.mp hlt) with h | h
          · exact h
          · exact absurd h.symm heq
        rw [if_neg hlt, if_pos hgt]
        decide

theorem strchr_some {p : Nat} (h : strchr c s = some p) :
    ∃ v r, s = v ++ c :: r ∧ v.length = p ∧ c ∉ v ∧ 0 ∉ v := by
  induction s generalizing p with
  | nil => cases h
  | cons d s ih =>
    rw [strchr] at h
    by_cases hd : d = c
    · rw [if_pos hd] at h
      cases h
      exact ⟨[], s, congrArg (· :: s) hd, rfl, not_mem_nil, not_mem_nil⟩
    rw [if_neg hd] at h
    by_cases h0 : d = 0
    · rw [if_pos h0] at h
      cases h
    rw [if_neg h0] at h
    cases hs : strchr c s with
    | none =>
      rw [hs] at h
      cases h
    | some q =>
      rw [hs] at h
      cases h
      obtain ⟨v, r, rfl, rfl, hc, hz⟩ := ih hs
      refine ⟨d :: v, r, rfl, rfl, ?_, ?_⟩
      · rw [mem_cons, not_or]
        exact ⟨fun hcd => hd hcd.symm, hc⟩
      · rw [mem_cons, not_or]
        exact ⟨fun hcd => h0 hcd.symm, hz⟩

theorem strchr_append (hc : c ∉ v) (hz : 0 ∉ v) (r : List UInt8) :
    strchr c (v ++ c :: r) = some v.length := by
  induction v with
  | nil => exact if_pos rfl
  | cons d v ih =>
    rw [mem_cons, not_or] at hc hz
    rw [cons_append, strchr, if_neg (fun h => hc.1 h.symm), if_neg (fun h => hz.1 h.symm),
      ih hc.2 hz.2]
    rfl

theorem LongestPrefix.unique {P : List UInt8 → Prop} {m : Nat}
    (h : LongestPrefix P t n) (h' : LongestPrefix P t m) : n = m := by
  have hle : ∀ {n m}, LongestPrefix P t n → LongestPrefix P t m → n ≤ m := by
    intro n m h h'
    by_cases h0 : n = 0
    · omega
    · obtain ⟨hn, hP⟩ := h.2 h0
      have := h'.1 _ ( take_prefix n t) hP
      rwa [length_take, min_eq_left hn] at this
  exact le_antisymm (hle h h') (hle h' h)

theorem prefix_word {word : List UInt8} (hw : w <+: t) (h : w.map toupper = word) :
    w.length = word.length ∧ (t.take word.length).map toupper = word := by
  have hlen : w.length = word.length := by rw [← h, length_map]
  refine ⟨hlen, ?_⟩
  rw [← hlen, ← prefix_iff_eq_take.mp hw, h]

theorem three_letters {x y z : UInt8} (h : (t.take 3).map toupper = [x, y, z]) :
    ∃ a b c r, t = a :: b :: c :: r ∧ toupper a = x ∧ toupper b = y ∧ toupper c = z := by
  rcases t with _ | ⟨a, _ | ⟨b, _ | ⟨c, r⟩⟩⟩
  · cases h
  · cases h
  · cases h
  · simp only [take_succ_cons, map_cons, cons.injEq] at h
    exact ⟨a, b, c, r, rfl, h.1, h.2.1, h.2.2.1⟩

theorem letter_not_digit : ∀ c, toupper c = 73 ∨ toupper c = 78 →
    ¬ IsDigit 10 c ∧ c ≠ 46 ∧ c ≠ 48 :=
  forall_byte (by decide +kernel)

theorem body_word (h : Body w) {a : UInt8} {r : List UInt8} (hw : w = a :: r)
    (ha : toupper a = 73 ∨ toupper a = 78) :
    w.map toupper = infinityWord.take 3 ∨ w.map toupper = infinityWord ∨ NanBody w := by
  obtain ⟨hdigit, hpoint, hzero⟩ := letter_not_digit a ha
  rcases h with h | ⟨x, v, -, -, hx⟩ | h
  · obtain ⟨c, w', hc, hfirst⟩ := numeral_head h
    rw [hw] at hc
    cases hc
    rcases hfirst with hfirst | hfirst
    · exact absurd hfirst hdigit
    · exact absurd hfirst hpoint
  · rw [hw] at hx
    exact absurd (cons.inj hx).1 hzero
  · exact h

theorem body_ne_nil (h : Body w) : w ≠ [] := by
  rintro rfl
  rcases h with h | ⟨x, v, -, -, hx⟩ | h | h | h | ⟨u, v, -, -, hx⟩
  · obtain ⟨c, w', hc, -⟩ := numeral_head h
    cases hc
  · cases hx
  · cases h
  · cases h
  · cases h
  · cases u with
    | nil | cons d u => cases hx

section
variable {F : Type} (fp : Fpu F)

theorem infinity_letters : ∀ d ∈ infinityWord, d ∈ wordLetters := by
  simp [infinityWord, wordLetters]

theorem infinity_tail_letters : ∀ d ∈ infinityWord.drop 3, d ∈ wordLetters := by
  simp [infinityWord, wordLetters]

theorem nan_letters : ∀ d ∈ nanWord, d ∈ wordLetters := by
  simp [nanWord, wordLetters]

/-- Where a word begins, only the words decide. -/
theorem complete_of_letter {a : UInt8} {r : List UInt8} (ha : toupper a = 73 ∨ toupper a = 78)
    (h8 : ((a :: r).take 8).map toupper ≠ infinityWord)
    (hnan : ((a :: r).take 3).map toupper = nanWord → ∀ v r', (a :: r).drop 3 = 40 :: (v ++ 41 :: r') →
      41 ∉ v → 0 ∉ v → ∀ c ∈ v, NChar c) : Complete fp (a :: r) := by
  obtain ⟨hdigit, hpoint, hzero⟩ := letter_not_digit a ha
  refine ⟨h8, hnan, fun r' heq => absurd (cons.inj heq).1 hpoint,
    fun x r' _ heq => absurd (cons.inj heq).1 hzero, fun hbegin => ?_⟩
  rw [isdigit_iff] at hbegin
  rcases hbegin with hbegin | hbegin
  · exact absurd hbegin hpoint
  · exact absurd hbegin hdigit

section

variable (h : (t.take 3).map toupper = infinityWord.take 3)
include h

theorem bodyStop_inf (fuel : Nat) : bodyStop fp fuel t = some 3 := by
  rw [bodyStop, if_pos ((strncasecmp_word 3 t infinityWord (by decide) infinity_letters).mpr h),
    if_neg]
  rw [strncasecmp_word 5 t _ (by decide) infinity_tail_letters]
  intro h5
  obtain ⟨a, b, c, r, rfl, -, -, hc⟩ := three_letters h
  have hthird := (cons.inj (cons.inj (cons.inj h5).2).2).1
  exact absurd (hc.symm.trans hthird) (by decide)

theorem body_inf :
    LongestPrefix Body t (if (t.take 8).map toupper = infinityWord then 8 else 3) := by
  constructor
  · intro w hw hbody
    obtain ⟨a, b, c, r, rfl, ha, -, -⟩ := three_letters h
    obtain ⟨d, w', rfl⟩ := exists_cons_of_ne_nil (body_ne_nil hbody)
    obtain ⟨rfl, -⟩ := cons_prefix_cons.mp hw
    rcases body_word hbody rfl (Or.inl ha) with hword | hword | hnan
    · rw [(prefix_word hw hword).1]
      split <;> decide
    · have h8 : ((d :: b :: c :: r).take 8).map toupper = infinityWord := (prefix_word hw hword).2
      rw [if_pos h8, (prefix_word hw hword).1]
      decide
    have hfirst : toupper d = 78 := by
      rcases hnan with hnan | ⟨u, v, hu, -, heq⟩
      · exact (cons.inj hnan).1
      cases u with
      | nil => cases hu
      | cons e u =>
        rw [(cons.inj heq).1]
        exact (cons.inj hu).1
    exact absurd (ha.symm.trans hfirst) (by decide)
  · intro _
    have hlen : ∀ {k : Nat} {word : List UInt8}, word.length = k → (t.take k).map toupper = word →
        k ≤ t.length := by
      intro k word hk hword
      have := congrArg length hword
      rw [length_map, length_take, hk] at this
      omega
    split
    · next h8 => exact ⟨hlen rfl h8, Or.inr (Or.inr (Or.inr (Or.inl h8)))⟩
    · exact ⟨hlen rfl h, Or.inr (Or.inr (Or.inl h))⟩

theorem complete_inf : Complete fp t ↔ (t.take 8).map toupper ≠ infinityWord := by
  obtain ⟨a, b, c, r, rfl, ha, -, -⟩ := three_letters h
  refine ⟨fun hc => hc.infinity, fun h8 => complete_of_letter fp (Or.inl ha) h8 fun hnan => ?_⟩
  rw [h] at hnan
  cases hnan

end

/-! ## Not a number -/

theorem bodyStop_nan (h : (t.take 3).map toupper = nanWord) (fuel : Nat) :
    bodyStop fp fuel t = some (if t.getD 3 0 = 40 then
      ((strchr 41 (t.drop 4)).map (fun p => 4 + p + 1)).getD 3 else 3) := by
  have hinf : ¬ strncasecmp t infinityWord 3 = 0 := by
    rw [strncasecmp_word 3 t infinityWord (by decide) infinity_letters, h]
    decide
  have hnan := (strncasecmp_word 3 t nanWord (by decide) nan_letters).mpr h
  rw [bodyStop, if_neg hinf, if_pos hnan]
  by_cases hopen : t.getD 3 0 = 40
  · rw [if_pos hopen, if_pos hopen]
    cases strchr 41 (t.drop 4) <;> rfl
  · rw [if_neg hopen, if_neg hopen]

theorem body_nan_cases (h : (t.take 3).map toupper = nanWord) (hw : w <+: t) (hbody : Body w) :
    w.length = 3 ∨ ∃ v r, (∀ c ∈ v, NChar c) ∧ t.drop 3 = 40 :: (v ++ 41 :: r) ∧
      w.length = v.length + 5 := by
  obtain ⟨a, b, c, r, rfl, ha, -, -⟩ := three_letters h
  obtain ⟨d, w', rfl⟩ := exists_cons_of_ne_nil (body_ne_nil hbody)
  obtain ⟨rfl, -⟩ := cons_prefix_cons.mp hw
  have hnot : toupper d ≠ 73 := by
    rw [ha]
    decide
  rcases body_word hbody rfl (Or.inr ha) with hword | hword | hnan
  · exact absurd (cons.inj hword).1 hnot
  · exact absurd (cons.inj hword).1 hnot
  rcases hnan with hword | ⟨u, v, hu, hv, heq⟩
  · exact Or.inl (prefix_word hw hword).1
  have hlen : u.length = 3 := by rw [← @length_map _ _ u toupper, hu]; rfl
  obtain ⟨r', hr⟩ := hw
  refine Or.inr ⟨v, r', hv, ?_, ?_⟩
  · rw [← hr, heq, append_assoc, drop_left' hlen]
    simp
  · rw [heq, length_append, hlen]
    simp only [length_cons, length_append, length_nil]
    omega

theorem nchar_not : ∀ c, NChar c → c ≠ 41 ∧ c ≠ 0 := by
  intro c hc
  rcases hc with hc | rfl
  · refine ⟨?_, ?_⟩
    · rintro rfl
      cases hc
    · rintro rfl
      exact absurd hc (by decide)
  · decide

theorem nan_unique {v' r' : List UInt8} (hv : 41 ∉ v) (hv' : 41 ∉ v')
    (h : v ++ 41 :: r = v' ++ 41 :: r') : v = v' := by
  induction v generalizing v' with
  | nil =>
    cases v' with
    | nil => rfl
    | cons d v' =>
      exact absurd ((cons.inj h).1 ▸ mem_cons_self) hv'
  | cons d v ih =>
    cases v' with
    | nil => exact absurd ((cons.inj h).1 ▸ mem_cons_self) hv
    | cons e v' =>
      obtain ⟨rfl, htail⟩ := cons.inj h
      rw [ih (fun hm => hv (.tail d hm))
        (fun hm => hv' (.tail d hm)) htail]

section

variable (h : (t.take 3).map toupper = nanWord)
include h

theorem nan_length : 3 ≤ t.length := by
  obtain ⟨a, b, c, r, rfl, -⟩ := three_letters h
  simp

theorem body_nan_plain (hno : ∀ v r, (∀ c ∈ v, NChar c) → t.drop 3 ≠ 40 :: (v ++ 41 :: r)) :
    LongestPrefix Body t 3 := by
  constructor
  · intro w hw hbody
    rcases body_nan_cases h hw hbody with hlen | ⟨v, r, hv, hdrop, -⟩
    · omega
    · exact absurd hdrop (hno v r hv)
  · exact fun _ => ⟨nan_length h, Or.inr (Or.inr (Or.inr (Or.inr (Or.inl h))))⟩

theorem body_nan_word (hv : ∀ c ∈ v, NChar c) (hdrop : t.drop 3 = 40 :: (v ++ 41 :: r)) :
    LongestPrefix Body t (v.length + 5) := by
  have hnot : ∀ {v : List UInt8}, (∀ c ∈ v, NChar c) → 41 ∉ v :=
    fun hv hm => (nchar_not 41 (hv 41 hm)).1 rfl
  constructor
  · intro w hw hbody
    rcases body_nan_cases h hw hbody with hlen | ⟨v', r', hv', hdrop', hlen⟩
    · omega
    · rw [hdrop] at hdrop'
      rw [hlen, nan_unique (hnot hv) (hnot hv') (cons.inj hdrop').2]
  intro _
  have hsplit : t = (t.take 3 ++ 40 :: (v ++ [41])) ++ r := by
    have := take_append_drop 3 t
    rw [hdrop] at this
    simpa using this.symm
  have hlen : (t.take 3 ++ 40 :: (v ++ [41])).length = v.length + 5 := by
    have := nan_length h
    simp only [length_append, length_take, length_cons, length_nil]
    omega
  have htake : t.take (v.length + 5) = t.take 3 ++ 40 :: (v ++ [41]) := by
    conv_lhs => rw [hsplit]
    exact take_left' hlen
  refine ⟨?_, ?_⟩
  · have := congrArg length hsplit
    rw [length_append, hlen] at this
    omega
  · rw [htake]
    exact Or.inr (Or.inr (Or.inr (Or.inr (Or.inr ⟨t.take 3, v, h, hv, rfl⟩))))

theorem complete_nan :
    Complete fp t ↔ ∀ v r, t.drop 3 = 40 :: (v ++ 41 :: r) → 41 ∉ v → 0 ∉ v →
      ∀ c ∈ v, NChar c := by
  refine ⟨fun hc => hc.nan h, fun hall => ?_⟩
  obtain ⟨a, b, c, r, rfl, ha, -, -⟩ := three_letters h
  refine complete_of_letter fp (Or.inr ha) (fun h8 => ?_) fun _ => hall
  exact absurd (ha.symm.trans (cons.inj h8).1) (by decide)

theorem nan_iff :
    ∃ k, (∀ fuel, bodyStop fp fuel t = some k) ∧ k ≤ t.length ∧
      (LongestPrefix Body t k ↔ Complete fp t) := by
  have hstop := bodyStop_nan fp h
  have hlen := nan_length h
  rw [complete_nan fp h]
  -- where nothing in parentheses follows, both are at the end of the word
  have hplain : (∀ v r, 41 ∉ v → 0 ∉ v → t.drop 3 ≠ 40 :: (v ++ 41 :: r)) →
      (LongestPrefix Body t 3 ↔ ∀ v r, t.drop 3 = 40 :: (v ++ 41 :: r) → 41 ∉ v → 0 ∉ v →
        ∀ c ∈ v, NChar c) := by
    intro hno
    refine ⟨fun _ v r hdrop hv hz => absurd hdrop (hno v r hv hz), fun _ =>
      body_nan_plain h fun v r hv => hno v r (fun hm => ?_) (fun hm => ?_)⟩
    · exact (nchar_not 41 (hv 41 hm)).1 rfl
    · exact (nchar_not 0 (hv 0 hm)).2 rfl
  by_cases hopen : t.getD 3 0 = 40
  · have hdrop : t.drop 3 = 40 :: t.drop 4 := by
      rw [getD_drop] at hopen
      rw [← drop_drop (i := 1) (j := 3)]
      cases hrest : t.drop 3 with
      | nil =>
        rw [hrest] at hopen
        cases hopen
      | cons c r =>
        rw [hrest] at hopen
        exact congrArg (· :: r) hopen
    cases hfind : strchr 41 (t.drop 4) with
    | none =>
      refine ⟨3, fun fuel => by rw [hstop, if_pos hopen, hfind]; rfl, hlen, hplain ?_⟩
      intro v r hv hz heq
      rw [hdrop] at heq
      rw [(cons.inj heq).2, strchr_append hv hz] at hfind
      cases hfind
    | some p =>
      obtain ⟨v, r, heq, rfl, hv, hz⟩ := strchr_some hfind
      rw [heq] at hdrop
      have hlen' := congrArg length hdrop
      rw [length_drop] at hlen'
      simp only [length_cons, length_append] at hlen'
      refine ⟨4 + v.length + 1, fun fuel => by rw [hstop, if_pos hopen, hfind]; rfl, by omega, ?_⟩
      constructor
      · intro hlongest v' r' hdrop' hv' hz'
        rw [hdrop] at hdrop'
        rw [← nan_unique hv hv' (cons.inj hdrop').2]
        by_contra hbad
        have h3 : LongestPrefix Body t 3 := by
          refine body_nan_plain h fun v' r' hv' heq => hbad ?_
          rw [hdrop] at heq
          rwa [nan_unique hv (fun hm => (nchar_not 41 (hv' 41 hm)).1 rfl) (cons.inj heq).2]
        have := hlongest.unique h3
        omega
      · intro hall
        have hword := body_nan_word h (hall v r hdrop hv hz) hdrop
        rwa [show v.length + 5 = 4 + v.length + 1 by omega] at hword
  · refine ⟨3, fun fuel => by rw [hstop, if_neg hopen], hlen, hplain fun v r _ _ heq => ?_⟩
    rw [getD_drop, heq] at hopen
    exact hopen rfl

end

/-! ## Numerals -/

def NumeralFirst (c : UInt8) : Prop := c = 46 ∨ IsDigit 10 c

theorem NumeralFirst.letter (h : NumeralFirst c) : toupper c ≠ 73 ∧ toupper c ≠ 78 := by
  refine ⟨fun hc => ?_, fun hc => ?_⟩
  · obtain ⟨hdigit, hpoint, -⟩ := letter_not_digit c (Or.inl hc)
    exact h.elim hpoint hdigit
  · obtain ⟨hdigit, hpoint, -⟩ := letter_not_digit c (Or.inr hc)
    exact h.elim hpoint hdigit

theorem body_numeral (h : Body (c :: w)) (hc : NumeralFirst c) :
    Numeral 10 (c :: w) ∨ ∃ x v, (x = 120 ∨ x = 88) ∧ Numeral 16 v ∧ c :: w = 48 :: x :: v := by
  obtain ⟨h73, h78⟩ := hc.letter
  rcases h with h | h | h | h | h | ⟨u, v, hu, -, heq⟩
  · exact Or.inl h
  · exact Or.inr h
  · exact absurd (cons.inj h).1 h73
  · exact absurd (cons.inj h).1 h73
  · exact absurd (cons.inj h).1 h78
  cases u with
  | nil => cases hu
  | cons d u =>
    rw [← (cons.inj heq).1] at hu
    exact absurd (cons.inj hu).1 h78

theorem bodyStop_numeral (hc : NumeralFirst c) (r : List UInt8) (fuel : Nat) :
    bodyStop fp fuel (c :: r) = if hexCase (c :: r) then
      (numeralStop fp fuel 16 ((c :: r).drop 2)).map (fun k => 2 + k)
    else numeralStop fp fuel 10 (c :: r) := by
  obtain ⟨h73, h78⟩ := hc.letter
  have hinf : ¬ strncasecmp (c :: r) infinityWord 3 = 0 := by
    rw [strncasecmp_word 3 _ infinityWord (by decide) infinity_letters]
    exact fun h => h73 (cons.inj h).1
  have hnan : ¬ strncasecmp (c :: r) nanWord 3 = 0 := by
    rw [strncasecmp_word 3 _ nanWord (by decide) nan_letters]
    exact fun h => h78 (cons.inj h).1
  have hfirst : ¬ ((c :: r).getD 0 0 ≠ 46 ∧ isdigit ((c :: r).getD 0 0) = false) := by
    rintro ⟨hpoint, hdigit⟩
    rcases hc with hc | hc
    · exact hpoint hc
    · rw [show (c :: r).getD 0 0 = c from rfl, (isdigit_iff c).mpr hc] at hdigit
      cases hdigit
  rw [bodyStop, if_neg hinf, if_neg hnan, if_neg hfirst]

theorem complete_numeral (hc : NumeralFirst c) (r : List UInt8) : Complete fp (c :: r) ↔
    (c = 46 → DigitFirst 10 r) ∧
      (∀ x r', (x = 120 ∨ x = 88) → c :: r = 48 :: x :: 46 :: r' → DigitFirst 16 r') ∧
      if hexCase (c :: r) then NumeralDone fp 16 ((c :: r).drop 2)
      else NumeralDone fp 10 (c :: r) := by
  obtain ⟨h73, h78⟩ := hc.letter
  constructor
  · intro h
    refine ⟨fun hpoint => h.point r (congrArg (· :: r) hpoint), h.hexPoint, h.numeral ?_⟩
    rwa [isdigit_iff]
  · rintro ⟨hpoint, hhex, hdone⟩
    refine ⟨fun h => h73 (cons.inj h).1, fun h => absurd (cons.inj h).1 h78,
      fun r' heq => ?_, hhex, fun _ => hdone⟩
    rw [← (cons.inj heq).2]
    exact hpoint (cons.inj heq).1

theorem hexCase_iff (t : List UInt8) : hexCase t = true ↔
    ∃ x y r, t = 48 :: x :: y :: r ∧ (x = 120 ∨ x = 88) ∧ (y = 46 ∨ IsDigit 16 y) := by
  rcases t with _ | ⟨a, _ | ⟨x, _ | ⟨y, r⟩⟩⟩
  · exact ⟨fun h => by simp [hexCase] at h, fun ⟨x, y, r, h, _⟩ => by cases h⟩
  · exact ⟨fun h => by simp [hexCase] at h, fun ⟨x, y, r, h, _⟩ => by cases h⟩
  · refine ⟨fun h => ?_, fun ⟨x, y, r, h, _⟩ => by cases h⟩
    simp only [hexCase, Bool.and_eq_true] at h
    exact absurd (show (decide ((0 : UInt8) = 46) || isxdigit 0) = true from h.2) (by decide)
  simp only [hexCase, Bool.and_eq_true, Bool.or_eq_true, decide_eq_true_eq, isxdigit_iff]
  constructor
  · rintro ⟨⟨rfl, hx⟩, hy⟩
    exact ⟨x, y, r, rfl, hx, hy⟩
  · rintro ⟨x', y', r', heq, hx, hy⟩
    cases heq
    exact ⟨⟨rfl, hx⟩, hy⟩

theorem numeralEnd_zero {x : UInt8} (hx : x = 120 ∨ x = 88) (r : List UInt8) :
    numeralEnd 10 (48 :: x :: r) = 1 := by
  rcases hx with rfl | rfl
  · rfl
  · rfl

theorem body_hex {x : UInt8} (hx : x = 120 ∨ x = 88) (s : List UInt8) :
    LongestPrefix Body (48 :: x :: s)
      (if HasDigits 16 s then 2 + numeralEnd 16 s else 1) := by
  have hlong := numeral_longest (Or.inr rfl) s
  constructor
  · intro w hw hbody
    obtain ⟨d, w', rfl⟩ := exists_cons_of_ne_nil (body_ne_nil hbody)
    obtain ⟨rfl, -⟩ := cons_prefix_cons.mp hw
    rcases body_numeral hbody (Or.inr (by decide)) with h | ⟨x', v, -, hv, heq⟩
    · have := (numeral_longest (Or.inl rfl) _).1 _ hw h
      rw [numeralEnd_zero hx] at this
      split <;> omega
    rw [heq] at hw ⊢
    obtain ⟨-, hw⟩ := cons_prefix_cons.mp hw
    obtain ⟨-, hw⟩ := cons_prefix_cons.mp hw
    have hle := hlong.1 v hw hv
    rw [if_pos (numeral_hasDigits (Or.inr rfl) hw hv)]
    simp only [length_cons]
    omega
  · intro _
    split
    · next hdigits =>
        have hne : numeralEnd 16 s ≠ 0 := by
          rw [numeralEnd, if_pos hdigits]
          have := hdigits.1
          omega
        obtain ⟨hle, hnum⟩ := hlong.2 hne
        refine ⟨by simp only [length_cons]; omega, ?_⟩
        rw [add_comm, take_succ_cons, take_succ_cons]
        exact Or.inr (Or.inl ⟨x, _, hx, hnum, rfl⟩)
    · refine ⟨by simp, Or.inl ⟨[48], [], Or.inl ⟨by simp, ?_⟩, Or.inl rfl, rfl⟩⟩
      intro c hc
      rw [mem_singleton.mp hc]
      decide

theorem body_decimal (hc : NumeralFirst c) (hhex : ¬ hexCase (c :: r) = true) :
    LongestPrefix Body (c :: r) (numeralEnd 10 (c :: r)) := by
  have hlong := numeral_longest (Or.inl rfl) (c :: r)
  constructor
  · intro w hw hbody
    obtain ⟨d, w', rfl⟩ := exists_cons_of_ne_nil (body_ne_nil hbody)
    obtain ⟨rfl, -⟩ := cons_prefix_cons.mp hw
    rcases body_numeral hbody hc with h | ⟨x, v, hx, hv, heq⟩
    · exact hlong.1 _ hw h
    refine absurd ?_ hhex
    rw [heq] at hw
    obtain ⟨y, v', rfl, hy⟩ := numeral_head hv
    obtain ⟨r', hr⟩ := hw
    rw [← hr, hexCase_iff]
    exact ⟨x, y, v' ++ r', rfl, hx, hy.symm⟩
  · intro hne
    exact ⟨(hlong.2 hne).1, Or.inl (hlong.2 hne).2⟩

/-- What the code stops at is right for a body. -/
def BodyRight (t : List UInt8) : Prop := ∃ fuel k, bodyStop fp fuel t = some k ∧ LongestPrefix Body t k

theorem numeral_right (hc : NumeralFirst c) (r : List UInt8) :
    BodyRight fp (c :: r) ↔ Complete fp (c :: r) := by
  rw [complete_numeral fp hc]
  by_cases hhex : hexCase (c :: r) = true
  · simp only [BodyRight, bodyStop_numeral fp hc, if_pos hhex]
    obtain ⟨x, y, r', heq, hx, hy⟩ := (hexCase_iff _).mp hhex
    obtain ⟨rfl, rfl⟩ := cons.inj heq
    rw [drop_succ_cons, drop_succ_cons, drop_zero]
    have hlong := body_hex hx (y :: r')
    have hfirst : HasDigits 16 (y :: r') ↔ ∀ x' r'', (x' = 120 ∨ x' = 88) →
        (48 : UInt8) :: x :: y :: r' = 48 :: x' :: 46 :: r'' → DigitFirst 16 r'' := by
      constructor
      · intro h x' r'' _ heq
        cases heq
        exact (hasDigits_point_first (Or.inr rfl) r').mp h
      · intro h
        rcases hy with rfl | hy
        · exact (hasDigits_point_first (Or.inr rfl) r').mpr (h x r' hx rfl)
        · exact hasDigits_digit (Or.inr rfl) hy r'
    rw [← hfirst]
    by_cases hdigits : HasDigits 16 (y :: r')
    · rw [if_pos hdigits] at hlong
      constructor
      · rintro ⟨fuel, k, hk, hlongest⟩
        refine ⟨fun h => absurd h (by decide), hdigits, ?_⟩
        refine (numeralStop_iff fp hdigits).mp ⟨fuel, ?_⟩
        cases hstop : numeralStop fp fuel 16 (y :: r') with
        | none =>
          rw [hstop] at hk
          cases hk
        | some m =>
          rw [hstop] at hk
          cases hk
          have heq : 2 + m = 2 + numeralEnd 16 (y :: r') := hlongest.unique hlong
          exact congrArg some (by omega)
      · rintro ⟨-, -, hdone⟩
        obtain ⟨fuel, hstop⟩ := (numeralStop_iff fp hdigits).mpr hdone
        exact ⟨fuel, _, by rw [hstop]; rfl, hlong⟩
    · rw [if_neg hdigits] at hlong
      refine ⟨?_, fun h => absurd h.2.1 hdigits⟩
      rintro ⟨fuel, k, hk, hlongest⟩
      have h1 := hlongest.unique hlong
      cases hstop : numeralStop fp fuel 16 (y :: r') with
      | none =>
        rw [hstop] at hk
        cases hk
      | some m =>
        rw [hstop] at hk
        cases hk
        have h1 : 2 + m = 1 := h1
        omega
  · simp only [BodyRight, bodyStop_numeral fp hc, if_neg hhex]
    have hlong := body_decimal hc hhex
    have hno : ∀ x r', (x = 120 ∨ x = 88) → c :: r = 48 :: x :: 46 :: r' → DigitFirst 16 r' := by
      intro x r' hx heq
      exact absurd ((hexCase_iff _).mpr ⟨x, 46, r', heq, hx, Or.inl rfl⟩) hhex
    have hfirst : HasDigits 10 (c :: r) ↔ (c = 46 → DigitFirst 10 r) := by
      constructor
      · rintro h rfl
        exact (hasDigits_point_first (Or.inl rfl) r).mp h
      · intro h
        rcases hc with rfl | hc
        · exact (hasDigits_point_first (Or.inl rfl) r).mpr (h rfl)
        · exact hasDigits_digit (Or.inl rfl) hc r
    rw [← hfirst]
    by_cases hdigits : HasDigits 10 (c :: r)
    · constructor
      · rintro ⟨fuel, k, hk, hlongest⟩
        refine ⟨hdigits, hno, (numeralStop_iff fp hdigits).mp ⟨fuel, ?_⟩⟩
        rw [hk, hlongest.unique hlong]
      · rintro ⟨-, -, hdone⟩
        obtain ⟨fuel, hstop⟩ := (numeralStop_iff fp hdigits).mpr hdone
        exact ⟨fuel, _, hstop, hlong⟩
    · refine ⟨?_, fun h => absurd h.1 hdigits⟩
      rintro ⟨fuel, k, hk, hlongest⟩
      have h0 := hlongest.unique hlong
      rw [numeralEnd, if_neg hdigits] at h0
      have hge := (numeralStop_bounds fp (Or.inl rfl) _ hk).1
      rcases hc with rfl | hc
      · rw [mantissaStop, mantissaLoop_stop (Or.inl rfl) (not_isDigit_point (Or.inl rfl)),
          if_pos (show (46 :: r).getD 0 0 = 46 from rfl)] at hge
        omega
      · exact absurd (hasDigits_digit (Or.inl rfl) hc r) hdigits

theorem no_word (hinf : (t.take 3).map toupper ≠ infinityWord.take 3)
    (hnan : (t.take 3).map toupper ≠ nanWord) :
    ¬ strncasecmp t infinityWord 3 = 0 ∧ ¬ strncasecmp t nanWord 3 = 0 := by
  rw [strncasecmp_word 3 t infinityWord (by decide) infinity_letters,
    strncasecmp_word 3 t nanWord (by decide) nan_letters]
  exact ⟨hinf, hnan⟩

theorem bodyStop_le {fuel k : Nat} (h : bodyStop fp fuel t = some k) : k ≤ t.length := by
  by_cases hinf : (t.take 3).map toupper = infinityWord.take 3
  · rw [bodyStop_inf fp hinf] at h
    cases h
    obtain ⟨a, b, c, r, rfl, -⟩ := three_letters hinf
    simp
  by_cases hnan : (t.take 3).map toupper = nanWord
  · obtain ⟨k', hk', hle, -⟩ := nan_iff fp hnan
    rw [hk' fuel] at h
    cases h
    exact hle
  obtain ⟨hinf', hnan'⟩ := no_word hinf hnan
  rw [bodyStop, if_neg hinf', if_neg hnan'] at h
  by_cases hfirst : t.getD 0 0 ≠ 46 ∧ isdigit (t.getD 0 0) = false
  · rw [if_pos hfirst] at h
    cases h
    omega
  rw [if_neg hfirst] at h
  by_cases hhex : hexCase t = true
  · rw [if_pos hhex] at h
    obtain ⟨x, y, r, rfl, -⟩ := (hexCase_iff t).mp hhex
    cases hstop : numeralStop fp fuel 16 ((48 :: x :: y :: r).drop 2) with
    | none =>
      rw [hstop] at h
      cases h
    | some m =>
      have hle := (numeralStop_bounds fp (Or.inr rfl) _ hstop).2
      rw [hstop] at h
      cases h
      simp only [drop_succ_cons, drop_zero, length_cons] at hle ⊢
      omega
  · rw [if_neg hhex] at h
    exact (numeralStop_bounds fp (Or.inl rfl) _ h).2

theorem bodyRight_iff (t : List UInt8) : BodyRight fp t ↔ Complete fp t := by
  by_cases hinf : (t.take 3).map toupper = infinityWord.take 3
  · have hlong := body_inf hinf
    rw [complete_inf fp hinf]
    simp only [BodyRight, bodyStop_inf fp hinf]
    constructor
    · rintro ⟨fuel, k, hk, hlongest⟩ h8
      cases hk
      have := hlongest.unique hlong
      rw [if_pos h8] at this
      cases this
    · intro h8
      rw [if_neg h8] at hlong
      exact ⟨0, 3, rfl, hlong⟩
  by_cases hnan : (t.take 3).map toupper = nanWord
  · obtain ⟨k, hk, -, hiff⟩ := nan_iff fp hnan
    rw [← hiff]
    simp only [BodyRight, hk]
    constructor
    · rintro ⟨fuel, k', hk', hlongest⟩
      cases hk'
      exact hlongest
    · simp
  by_cases hfirst : ∃ c r, t = c :: r ∧ NumeralFirst c
  · obtain ⟨c, r, rfl, hc⟩ := hfirst
    exact numeral_right fp hc r
  -- nothing is converted
  have hno : ¬ (t.getD 0 0 = 46 ∨ isdigit (t.getD 0 0) = true) := by
    rw [isdigit_iff]
    intro h
    cases t with
    | nil => exact absurd h (by decide)
    | cons c r => exact hfirst ⟨c, r, rfl, h⟩
  have hfront : ∀ {w : List UInt8} {c : UInt8} {w' : List UInt8}, w <+: t → w = c :: w' →
      ¬ NumeralFirst c := by
    rintro w c w' ⟨r, hr⟩ rfl hc
    exact hfirst ⟨c, w' ++ r, hr.symm, hc⟩
  have hword : ∀ {w : List UInt8}, w <+: t → 3 ≤ w.length → w.take 3 = t.take 3 := by
    rintro w ⟨r, rfl⟩ hlen
    rw [take_append_of_le_length hlen]
  obtain ⟨hinf', hnan'⟩ := no_word hinf hnan
  have hstop : bodyStop fp 0 t = some 0 := by
    rw [bodyStop, if_neg hinf', if_neg hnan', if_pos]
    rw [not_or] at hno
    exact ⟨hno.1, by simpa using hno.2⟩
  have hlong : LongestPrefix Body t 0 := by
    refine ⟨fun w hw hbody => ?_, fun h => absurd rfl h⟩
    exfalso
    rcases hbody with h | ⟨x, v, -, -, rfl⟩ | h | h | h | ⟨u, v, hu, -, rfl⟩
    · obtain ⟨c, w', rfl, hc⟩ := numeral_head h
      exact hfront hw rfl hc.symm
    · exact hfront hw rfl (Or.inr (by decide))
    iterate 2
      · have hlen := (prefix_word hw h).1
        rw [← hword hw (by rw [hlen]; decide), map_take, h] at hinf
        exact hinf rfl
    · exact hnan (prefix_word hw h).2
    · have hlen : u.length = 3 := by rw [← @length_map _ _ u toupper, hu]; rfl
      refine hnan ?_
      rw [← hword hw (by rw [length_append, hlen]; omega), take_left' hlen, hu]
  refine ⟨fun _ => ⟨fun h8 => hinf ?_, fun h => absurd h hnan, fun r heq => ?_,
    fun x r _ heq => ?_, fun h => absurd h hno⟩, fun _ => ⟨0, 0, hstop, hlong⟩⟩
  · have h3 := congrArg (take 3) h8
    rwa [← map_take, take_take] at h3
  · exact absurd ⟨46, r, heq, Or.inl rfl⟩ hfirst
  · exact absurd ⟨48, x :: 46 :: r, heq, Or.inr (by decide)⟩ hfirst

end

end Dancy.Libc
