import Dancy.Libc.StrtodBody

/-!
# The subject of `strtod`

White space and the sign come before the body. The end is right just if every
part of the string that is begun is complete.
-/

namespace Dancy.Libc

open List Option

variable {c : UInt8} {t w : List UInt8} {n : Nat}

theorem longestPrefix_exists (P : List UInt8 → Prop) (t : List UInt8) :
    ∃ n, LongestPrefix P t n := by
  classical
  refine ⟨Nat.findGreatest (fun n => P (t.take n)) t.length, fun w hw hP => ?_, fun hne => ?_⟩
  · refine Nat.le_findGreatest hw.length_le ?_
    rwa [← prefix_iff_eq_take.mp hw]
  · exact ⟨Nat.findGreatest_le t.length, Nat.findGreatest_of_ne_zero rfl hne⟩

theorem body_not_sign (h : Body (c :: w)) : ¬ (c = 43 ∨ c = 45) := by
  intro hc
  have hletters : toupper c ≠ 73 ∧ toupper c ≠ 78 := by
    rcases hc with rfl | rfl
    · decide
    · decide
  rcases h with h | ⟨x, v, -, -, heq⟩ | h | h | h | ⟨u, v, hu, -, heq⟩
  · obtain ⟨d, w', heq, hd⟩ := numeral_head h
    cases heq
    rcases hd with hd | rfl
    · exact not_isDigit_sign hc hd
    · simp at hc
  · rw [(cons.inj heq).1] at hc
    exact absurd hc (by decide)
  · exact hletters.1 (cons.inj h).1
  · exact hletters.1 (cons.inj h).1
  · exact hletters.2 (cons.inj h).1
  cases u with
  | nil => cases hu
  | cons d u =>
    rw [← (cons.inj heq).1] at hu
    exact hletters.2 (cons.inj hu).1

theorem subject_longest (h : LongestPrefix Body (t.drop (exponentSign t)) n) :
    LongestPrefix Subject t (if n = 0 then 0 else exponentSign t + n) := by
  obtain ⟨hsign, hle⟩ := exponentSign_split t
  constructor
  · rintro w hw ⟨s, v, hs, hv, rfl⟩
    obtain ⟨d, v', rfl⟩ := exists_cons_of_ne_nil (body_ne_nil hv)
    have hlen : s.length = exponentSign t := by
      obtain ⟨r, rfl⟩ := hw
      rcases hs with rfl | rfl | rfl
      · exact (if_neg (body_not_sign hv)).symm
      · rfl
      · rfl
    have hprefix : d :: v' <+: t.drop (exponentSign t) := by
      obtain ⟨r, rfl⟩ := hw
      rw [← hlen, append_assoc, drop_left]
      simp
    have hn := h.1 _ hprefix hv
    rw [if_neg (by rw [length_cons] at hn; omega), length_append, hlen]
    omega
  · intro hne
    by_cases h0 : n = 0
    · exact absurd (if_pos h0) hne
    · obtain ⟨hlen, hbody⟩ := h.2 h0
      rw [length_drop] at hlen
      rw [if_neg h0]
      exact ⟨by omega, t.take (exponentSign t), _, hsign, hbody, take_add⟩

/-! ## The string -/

theorem drop_takeWhile_length (p : UInt8 → Bool) (s : List UInt8) :
    s.drop (s.takeWhile p).length = s.dropWhile p := by
  have h := @drop_left _ (s.takeWhile p) (s.dropWhile p)
  rwa [takeWhile_append_dropWhile] at h

theorem digitsAt_eq (str : List UInt8) :
    digitsAt str = signAt str + exponentSign (str.dropWhile isspace) := by
  have hat : str.getD (signAt str) 0 = (str.dropWhile isspace).getD 0 0 := by
    rw [getD_drop, signAt, drop_takeWhile_length]
  rw [digitsAt, hat, exponentSign]
  split <;> rfl

theorem drop_digitsAt (str : List UInt8) : str.drop (digitsAt str) =
    (str.dropWhile isspace).drop (exponentSign (str.dropWhile isspace)) := by
  rw [digitsAt_eq, ← drop_drop, signAt, drop_takeWhile_length]

section
variable {F : Type} (fp : Fpu F)

theorem strtodEnd_right (str : List UInt8) :
    (∃ fuel e, strtodEnd fp fuel str = some e ∧ IsEnd str e) ↔
      BodyRight fp (str.drop (digitsAt str)) := by
  obtain ⟨n, hn⟩ := longestPrefix_exists Body (str.drop (digitsAt str))
  have hsubject := hn
  rw [drop_digitsAt] at hsubject
  have hsubject := subject_longest hsubject
  -- the end of the standard, counted like the end of the code
  have hend : (if (if n = 0 then 0 else exponentSign (str.dropWhile isspace) + n) = 0 then 0
      else (str.takeWhile isspace).length +
        (if n = 0 then 0 else exponentSign (str.dropWhile isspace) + n)) =
      if n = 0 then 0 else digitsAt str + n := by
    by_cases h0 : n = 0
    · simp [if_pos h0]
    · rw [if_neg h0, if_neg h0, if_neg (by omega), digitsAt_eq, signAt]
      omega
  constructor
  · rintro ⟨fuel, e, he, m, hm, rfl⟩
    rw [hm.unique hsubject, hend, strtodEnd] at he
    cases hk : bodyStop fp fuel (str.drop (digitsAt str)) with
    | none =>
      rw [hk] at he
      cases he
    | some k =>
      rw [hk, map_some, some.injEq] at he
      have hkn : k = n := by
        by_cases hk0 : k = 0
        · rw [if_pos hk0] at he
          split at he <;> omega
        · rw [if_neg hk0] at he
          split at he <;> omega
      exact ⟨fuel, k, hk, hkn ▸ hn⟩
  · rintro ⟨fuel, k, hk, hlong⟩
    obtain rfl := hlong.unique hn
    exact ⟨fuel, _, by rw [strtodEnd, hk]; rfl, _, hsubject, hend.symm⟩

theorem strtodEnd_le {str : List UInt8} {fuel e : Nat} (h : strtodEnd fp fuel str = some e) :
    e ≤ str.length := by
  rw [strtodEnd] at h
  cases hk : bodyStop fp fuel (str.drop (digitsAt str)) with
  | none =>
    rw [hk] at h
    cases h
  | some k =>
    have hle := bodyStop_le fp hk
    rw [length_drop] at hle
    rw [hk, map_some, some.injEq] at h
    split at h <;> omega

/-- The end lies in the string, and is the one of the standard just if every part
that is begun is complete. -/
theorem strtod_end_iff (str : List UInt8) :
    (∀ fuel e, strtodEnd fp fuel str = some e → e ≤ str.length) ∧
      ((∃ fuel e, strtodEnd fp fuel str = some e ∧ IsEnd str e) ↔
        Complete fp (str.drop (digitsAt str))) :=
  ⟨fun _ _ h => strtodEnd_le fp h, (strtodEnd_right fp str).trans (bodyRight_iff fp _)⟩

end

/-- `long double` on the whole numbers below `2 ^ 64`, where it is exact. -/
def natFpu : Fpu Nat := ⟨0, fun d i => d * 10 + i, fun d => d - 1, fun d => 0 < d⟩

/-- `INFINITY`, `1e` and `.` have another end. -/
theorem strtod_end_wrong : ¬ (∃ fuel e, strtodEnd natFpu fuel infinityWord = some e ∧
      IsEnd infinityWord e) ∧
    (¬ ∃ fuel e, strtodEnd natFpu fuel [49, 101] = some e ∧ IsEnd [49, 101] e) ∧
      ¬ ∃ fuel e, strtodEnd natFpu fuel [46] = some e ∧ IsEnd [46] e := by
  rw [strtodEnd_right, strtodEnd_right, strtodEnd_right, bodyRight_iff, bodyRight_iff,
    bodyRight_iff]
  refine ⟨fun h => h.infinity (by decide), fun h => ?_, fun h => ?_⟩
  · obtain ⟨⟨c, r, heq, -⟩, -⟩ := h.numeral (Or.inr rfl) 101 [] rfl (by decide)
    cases heq
  · obtain ⟨c, r, heq, -⟩ := h.point [] rfl
    cases heq

end Dancy.Libc
