import Mathlib.Data.List.TakeWhile
import Mathlib.Tactic.Common

/-!
# `strtok`

One loop skips the delimiters before a token and scans the token; `r` is at
the scan position as long as it skips. The string goes on in static
variables from one call to the next.
-/

namespace Dancy.Libc

open List

/-- The static variables, with the string and its NUL as they are. -/
structure Strtok where
  mem : List UInt8
  state : Bool
  size : Nat

/-- The loop of `strtok`; no result is an access outside the string. -/
def strtokLoop (s2 : List UInt8) : Nat → List UInt8 → Nat → Nat → Option (Option Nat × Strtok)
  | 0, _, _, _ => none
  | fuel + 1, mem, r, size =>
    match mem[size]? with
    | none => none
    | some c1 =>
      if c1 = 0 then some (if r = size then none else some r, ⟨mem, false, 0⟩)
      else if s2 = [] then some (some r, ⟨mem, false, 0⟩)
      else if c1 ∈ s2 then
        if r = size then strtokLoop s2 fuel mem (size + 1) (size + 1)
        else some (some r, ⟨mem.set size 0, true, size + 1⟩)
      else strtokLoop s2 fuel mem r (size + 1)

def strtok (st : Strtok) (s1 : Option (List UInt8)) (s2 : List UInt8) :
    Option (Option Nat × Strtok) :=
  match s1 with
  | none =>
    if st.state then strtokLoop s2 (st.mem.length + 1) st.mem st.size st.size else some (none, st)
  | some s => strtokLoop s2 (s.length + 2) (s ++ [0]) 0 0

def stringAt (mem : List UInt8) (r : Nat) : List UInt8 := (mem.drop r).takeWhile (· ≠ 0)

/-- The strings that a call with `s1` and the calls after it with null return. -/
def strtokCalls : Strtok → Option (List UInt8) → List (List UInt8) →
    Option (List (Option (List UInt8)))
  | _, _, [] => some []
  | st, s1, s2 :: sets => (strtok st s1 s2).bind fun (r, st) =>
      (strtokCalls st none sets).map fun rest => r.map (stringAt st.mem) :: rest

/-! ## Tokens -/

/-- The first token of a string and what follows its delimiter. -/
def token (s2 s : List UInt8) : List UInt8 × List UInt8 :=
  let s := s.dropWhile (· ∈ s2)
  (s.takeWhile (· ∉ s2), (s.dropWhile (· ∉ s2)).drop 1)

/-- The reference: one token for each set, and nothing when none is left. -/
def tokens : List UInt8 → List (List UInt8) → List (Option (List UInt8))
  | _, [] => []
  | s, s2 :: sets =>
    (if (token s2 s).1 = [] then none else some (token s2 s).1) :: tokens (token s2 s).2 sets

/-- A token that has begun with `w`. -/
def tokenFrom (s2 w s : List UInt8) : List UInt8 × List UInt8 :=
  if w = [] then token s2 s else (w ++ s.takeWhile (· ∉ s2), (s.dropWhile (· ∉ s2)).drop 1)

variable {s2 w s pre : List UInt8} {c : UInt8} {fuel : Nat}

theorem tokenFrom_delimiter (hc : c ∈ s2) :
    tokenFrom s2 w (c :: s) = if w = [] then tokenFrom s2 [] s else (w, s) := by
  unfold tokenFrom token
  split <;> simp [hc]

theorem tokenFrom_other (hc : c ∉ s2) :
    tokenFrom s2 w (c :: s) = tokenFrom s2 (w ++ [c]) s := by
  unfold tokenFrom token
  by_cases hw : w = [] <;> simp [hc, hw]

def Strtok.Left (st : Strtok) (s : List UInt8) : Prop :=
  if st.state then 0 ∉ s ∧ ∃ pre, st.mem = pre ++ (s ++ [0]) ∧ st.size = pre.length else s = []

theorem stringAt_append (hw : 0 ∉ w) : stringAt (pre ++ (w ++ 0 :: s)) pre.length = w := by
  have hall : ∀ c ∈ w, decide (c ≠ 0) = true := fun c hc => by
    rw [decide_eq_true_eq]
    rintro rfl
    exact hw hc
  rw [stringAt, drop_left, takeWhile_append_of_pos hall, takeWhile_cons_of_neg (by decide),
    append_nil]

/-- The loop, `w` characters behind the start of a token. -/
theorem strtokLoop_spec (hset : s2 ≠ []) (hs : 0 ∉ s) :
    ∀ (pre w : List UInt8) (fuel : Nat), 0 ∉ w → s.length < fuel →
      ∃ r st, strtokLoop s2 fuel (pre ++ (w ++ (s ++ [0]))) pre.length (pre.length + w.length) =
          some (r, st) ∧
        r.map (stringAt st.mem) =
          (if (tokenFrom s2 w s).1 = [] then none else some (tokenFrom s2 w s).1) ∧
        st.Left (tokenFrom s2 w s).2 := by
  induction s with
  | nil =>
    intro pre w fuel hw hfuel
    obtain ⟨fuel, rfl⟩ : ∃ k, fuel = k + 1 := ⟨fuel - 1, by omega⟩
    have hread : (pre ++ (w ++ ([] ++ [0])))[pre.length + w.length]? = some (0 : UInt8) := by simp
    rw [strtokLoop, hread]
    refine ⟨_, _, if_pos rfl, ?_, ?_⟩
    · by_cases hnil : w = []
      · simp [hnil, tokenFrom, token]
      · have hpos := length_pos_iff.mpr hnil
        rw [if_neg (by omega), tokenFrom, if_neg hnil]
        simp [hnil, stringAt_append hw]
    · by_cases hnil : w = [] <;> simp [hnil, Strtok.Left, tokenFrom, token]
  | cons c s ih =>
    intro pre w fuel hw hfuel
    obtain ⟨fuel, rfl⟩ : ∃ k, fuel = k + 1 := ⟨fuel - 1, by omega⟩
    obtain ⟨hc, hs⟩ := not_or.mp (mt mem_cons.mpr hs)
    rw [length_cons] at hfuel
    have hread : (pre ++ (w ++ (c :: s ++ [0])))[pre.length + w.length]? = some c := by simp
    rw [strtokLoop, hread]
    dsimp only
    rw [if_neg (Ne.symm hc), if_neg hset]
    by_cases hmem : c ∈ s2
    · rw [if_pos hmem, tokenFrom_delimiter hmem]
      by_cases hnil : w = []
      · -- the loop still skips
        have := ih hs (pre ++ [c]) [] fuel not_mem_nil (by omega)
        simpa [hnil] using this
      · have hpos := length_pos_iff.mpr hnil
        have hmem' : (pre ++ (w ++ (c :: s ++ [0]))).set (pre.length + w.length) 0 =
            pre ++ (w ++ 0 :: (s ++ [0])) := by simp
        rw [if_neg (by omega), if_neg hnil, hmem']
        refine ⟨_, _, rfl, ?_, ?_⟩
        · rw [if_neg hnil, Option.map_some, stringAt_append hw]
        · exact ⟨hs, pre ++ (w ++ [0]), by simp, by simp; omega⟩
    · rw [if_neg hmem, tokenFrom_other hmem]
      have := ih hs pre (w ++ [c]) fuel (by simp [hw, hc]) (by omega)
      simpa [Nat.add_assoc] using this

theorem strtok_next {st : Strtok} (hset : s2 ≠ []) (h : st.Left s) :
    ∃ r st', strtok st none s2 = some (r, st') ∧
      r.map (stringAt st'.mem) = (if (token s2 s).1 = [] then none else some (token s2 s).1) ∧
      st'.Left (token s2 s).2 := by
  unfold Strtok.Left at h
  rw [strtok]
  by_cases hstate : st.state
  · rw [if_pos hstate] at h ⊢
    obtain ⟨hs, pre, hmem, hsize⟩ := h
    have hloop := strtokLoop_spec hset hs pre [] (st.mem.length + 1)
      not_mem_nil (by rw [hmem]; simp; omega)
    rwa [nil_append, ← hmem, length_nil, Nat.add_zero, ← hsize] at hloop
  · rw [if_neg hstate] at h ⊢
    subst h
    exact ⟨none, st, rfl, by simp [token], by simp [Strtok.Left, hstate, token]⟩

theorem strtokCalls_next {sets : List (List UInt8)} (hsets : ∀ s2 ∈ sets, s2 ≠ []) :
    ∀ {st : Strtok} {s : List UInt8}, st.Left s →
      strtokCalls st none sets = some (tokens s sets) := by
  induction sets with
  | nil => exact fun _ => rfl
  | cons s2 sets ih =>
    intro st s h
    rw [forall_mem_cons] at hsets
    obtain ⟨r, st', hcall, hr, hleft⟩ := strtok_next hsets.1 h
    rw [strtokCalls, hcall, Option.bind_some]
    dsimp only
    rw [ih hsets.2 hleft, Option.map_some, hr, tokens]

/-- Whatever was split before, no call leaves the string and each returns
the next token. -/
theorem strtok_tokens (st : Strtok) (hs : 0 ∉ s) {sets : List (List UInt8)}
    (hsets : ∀ s2 ∈ sets, s2 ≠ []) :
    strtokCalls st (some s) sets = some (tokens s sets) := by
  cases sets with
  | nil => rfl
  | cons s2 sets =>
    rw [forall_mem_cons] at hsets
    obtain ⟨r, st', hcall, hr, hleft⟩ := strtokLoop_spec hsets.1 hs [] [] (s.length + 2)
      not_mem_nil (by omega)
    rw [strtokCalls, strtok]
    dsimp only
    rw [nil_append, nil_append, length_nil, Nat.add_zero] at hcall
    rw [hcall, Option.bind_some]
    dsimp only
    rw [strtokCalls_next hsets.2 hleft, Option.map_some, hr, tokens, tokenFrom, if_pos rfl]

/-- `",a;b"` at the delimiters `,` and then `;`. -/
theorem strtok_tokens_two : strtokCalls ⟨[], false, 0⟩ (some [44, 97, 59, 98]) [[44, 59], [59], [59]] =
    some [some [97], some [98], none] :=
  strtok_tokens _ (by decide) (by decide)

end Dancy.Libc
