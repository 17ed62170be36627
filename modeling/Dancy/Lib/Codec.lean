import Mathlib.Data.List.Induction

/-!
# Codes and their stepwise decoders

A code maps values to words, and a decoder reads the letters of words one by
one: each letter ends a value, is taken without ending one, or is refused.
A `Codec` says what the decoder has taken since the last value; from that
follows that decoding whole texts inverts the code, in both directions.
-/

namespace Dancy.Lib

universe u v w

variable {α : Type u} {β : Type v} {σ : Type w}

inductive Heard (α : Type u) where
  | value (a : α)
  | more
  | refused

/-- Reads letters from a state on: the values and the state behind them,
`none` when a letter is refused. -/
def hear (step : σ → β → σ × Heard α) : σ → List β → Option (List α × σ)
  | s, [] => some ([], s)
  | s, c :: cs =>
    match step s c with
    | (s', .value a) => (hear step s' cs).map fun r => (a :: r.1, r.2)
    | (s', .more) => hear step s' cs
    | (_, .refused) => none

section
variable {step : σ → β → σ × Heard α}

variable {bs : List β} {as : List α} {s t : σ}

theorem hear_append (cs : List β) (h : hear step s bs = some (as, t)) :
    hear step s (bs ++ cs) = (hear step t cs).map fun r => (as ++ r.1, r.2) := by
  induction bs generalizing s as with
  | nil =>
    obtain ⟨rfl, rfl⟩ := Prod.mk.inj (Option.some.inj h)
    simp
  | cons b bs ih =>
    rw [List.cons_append, hear]
    rw [hear] at h
    match hb : step s b with
    | (s', .value a) =>
      rw [hb] at h
      obtain ⟨⟨as', t'⟩, hrest, heq⟩ := Option.map_eq_some_iff.mp h
      obtain ⟨rfl, rfl⟩ := Prod.mk.inj heq
      simp only [ih hrest, Option.map_map]
      rfl
    | (s', .more) =>
      rw [hb] at h
      exact ih h
    | (_, .refused) =>
      rw [hb] at h
      cases h

theorem hear_snoc (c : β) (h : hear step s bs = some (as, t)) :
    hear step s (bs ++ [c]) = match step t c with
      | (t', .value a) => some (as ++ [a], t')
      | (t', .more) => some (as, t')
      | (_, .refused) => none := by
  rw [hear_append [c] h, hear]
  rcases step t c with ⟨t', a | _ | _⟩ <;> simp [hear]

theorem hear_of_snoc {c : β} (h : hear step s (bs ++ [c]) = some (as, t)) :
    ∃ as' t', hear step s bs = some (as', t') ∧
      ((∃ a, step t' c = (t, .value a) ∧ as = as' ++ [a]) ∨
        (step t' c = (t, .more) ∧ as = as')) := by
  match hb : hear step s bs with
  | some (as', t') =>
    refine ⟨as', t', rfl, ?_⟩
    rw [hear_snoc c hb] at h
    match hc : step t' c with
    | (t₁, .value a) =>
      rw [hc] at h
      obtain ⟨rfl, rfl⟩ := Prod.mk.inj (Option.some.inj h)
      simp
    | (t₁, .more) =>
      rw [hc] at h
      obtain ⟨rfl, rfl⟩ := Prod.mk.inj (Option.some.inj h)
      exact .inr ⟨rfl, rfl⟩
    | (_, .refused) =>
      rw [hc] at h
      cases h
  | none =>
    exfalso
    induction bs generalizing s as with
    | nil => cases hb
    | cons b bs ih =>
      rw [List.cons_append, hear] at h
      rw [hear] at hb
      match hs : step s b with
      | (s', .value a) =>
        rw [hs] at h hb
        obtain ⟨⟨as₁, t₁⟩, h₁, heq⟩ := Option.map_eq_some_iff.mp h
        obtain ⟨-, rfl⟩ := Prod.mk.inj heq
        exact ih h₁ (Option.map_eq_none_iff.mp hb)
      | (s', .more) =>
        rw [hs] at h hb
        exact ih h hb
      | (_, .refused) =>
        rw [hs] at h
        cases h

end

/-- A decoder for a code. `Pending s rest` says that the decoder, in the
state `s`, has taken `rest` since the last value. -/
structure Codec (step : σ → β → σ × Heard α) (start : σ) (encode : α → List β)
    (Valid : α → Prop) where
  Pending : σ → List β → Prop
  pending_start : Pending start []
  eq_start : ∀ {s rest}, Pending s rest → (s = start ↔ rest = [])
  more : ∀ {s s' rest c}, Pending s rest → step s c = (s', .more) → Pending s' (rest ++ [c])
  value : ∀ {s s' rest c a}, Pending s rest → step s c = (s', .value a) →
    s' = start ∧ Valid a ∧ rest ++ [c] = encode a
  hear_encode : ∀ {a}, Valid a → hear step start (encode a) = some ([a], start)

namespace Codec

variable {step : σ → β → σ × Heard α} {start : σ} {encode : α → List β} {Valid : α → Prop}

theorem hear_flatMap (C : Codec step start encode Valid) {as : List α}
    (h : ∀ a ∈ as, Valid a) : hear step start (as.flatMap encode) = some (as, start) := by
  induction as with
  | nil => rfl
  | cons a as ih =>
    have hhead : hear step start (encode a) = some ([a], start) :=
      C.hear_encode (h a List.mem_cons_self)
    have htail := ih fun b hb => h b (.tail a hb)
    rw [List.flatMap_cons, hear_append _ hhead, htail]
    rfl

/-- What is decoded is the code of the values, and what is taken of the next. -/
theorem sound (C : Codec step start encode Valid) {bs : List β} {as : List α} {s : σ}
    (h : hear step start bs = some (as, s)) :
    (∀ a ∈ as, Valid a) ∧ ∃ rest, C.Pending s rest ∧ bs = as.flatMap encode ++ rest := by
  induction bs using List.reverseRecOn generalizing as s with
  | nil =>
    obtain ⟨rfl, rfl⟩ := Prod.mk.inj (Option.some.inj h)
    exact ⟨by simp, [], C.pending_start, rfl⟩
  | append_singleton bs c ih =>
    obtain ⟨as', t', hbs, hlast⟩ := hear_of_snoc h
    obtain ⟨hvalid, rest, hpending, rfl⟩ := ih hbs
    rcases hlast with ⟨a, hc, rfl⟩ | ⟨hc, rfl⟩
    · obtain ⟨rfl, ha, henc⟩ := C.value hpending hc
      refine ⟨?_, [], C.pending_start, ?_⟩
      · intro b hb
        rcases List.mem_append.mp hb with hb | hb
        · exact hvalid b hb
        · exact List.mem_singleton.mp hb ▸ ha
      · simp [henc]
    · exact ⟨hvalid, rest ++ [c], C.more hpending hc, by simp⟩

end Codec

end Dancy.Lib
