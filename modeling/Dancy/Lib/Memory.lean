import Mathlib.Tactic.Ring

/-!
# A memory of bytes

Little-endian loads and stores, and strings that end with a zero byte.
-/

namespace Dancy.Lib

open List Function

abbrev Memory := Nat → Nat

/-! ## Loads and stores -/

/-- The value of the `n` bytes at `a`. -/
def load (m : Memory) (a : Nat) : Nat → Nat
  | 0 => 0
  | n + 1 => m a % 256 + 256 * load m (a + 1) n

/-- `v` stored as `n` bytes at `a`. -/
def store (m : Memory) (a : Nat) : Nat → Nat → Memory
  | 0, _ => m
  | n + 1, v => store (update m a (v % 256)) (a + 1) n (v / 256)

variable {m m' : Memory} {a a' b : Nat}

theorem store_outside : ∀ {n a v : Nat} {m : Memory},
    b < a ∨ a + n ≤ b → store m a n v b = m b := by
  intro n
  induction n with
  | zero => intros; rfl
  | succ n ih =>
    intro a v m h
    rw [store, ih (by omega)]
    exact update_of_ne (by omega) _ _

theorem load_congr : ∀ {n a a' : Nat}, (∀ i, i < n → m (a + i) = m' (a' + i)) →
    load m a n = load m' a' n := by
  intro n
  induction n with
  | zero => intros; rfl
  | succ n ih =>
    intro a a' h
    have h0 : m a = m' a' := h 0 (by omega)
    have hs : load m (a + 1) n = load m' (a' + 1) n := by
      refine ih fun i hi => ?_
      have := h (i + 1) (by omega)
      rwa [← add_assoc, ← add_assoc, add_right_comm, add_right_comm a'] at this
    rw [load, load, h0, hs]

theorem load_store_self : ∀ {n a v : Nat} {m : Memory},
    load (store m a n v) a n = v % 256 ^ n := by
  intro n
  induction n with
  | zero => simp only [load]; omega
  | succ n ih =>
    intro a v m
    rw [load, store, ih, store_outside (by omega), update_self, pow_succ,
      mul_comm (256 ^ n), Nat.mod_mul]
    omega

theorem load_store_of_disjoint {n k v : Nat} (h : b + k ≤ a ∨ a + n ≤ b) :
    load (store m a n v) b k = load m b k :=
  load_congr fun i hi => store_outside (by omega)

theorem load_eq_zero : ∀ {n a : Nat}, (∀ i, i < n → m (a + i) = 0) → load m a n = 0 := by
  intro n
  induction n with
  | zero => intros; rfl
  | succ n ih =>
    intro a h
    have h0 : m a = 0 := h 0 (by omega)
    have hs : load m (a + 1) n = 0 :=
      ih fun i hi => by have := h (i + 1) (by omega); rwa [← add_assoc, add_right_comm] at this
    rw [load, h0, hs]

theorem load_lt (m : Memory) : ∀ (n a : Nat), load m a n < 256 ^ n := by
  intro n
  induction n with
  | zero => simp [load]
  | succ n ih =>
    intro a
    have := ih (a + 1)
    rw [load, pow_succ]
    omega

/-! ## Strings -/

/-- The string at `p`: its bytes, and the zero that ends it. -/
structure StringAt (m : Memory) (p : Nat) (s : List Nat) : Prop where
  bytes : ∀ (i : Nat) (h : i < s.length), m (p + i) = s[i]
  solid : ∀ b ∈ s, b ≠ 0
  ends : m (p + s.length) = 0

theorem StringAt.nil {p : Nat} (h : m p = 0) : StringAt m p [] :=
  ⟨fun i hi => absurd hi (Nat.not_lt_zero i), by simp, h⟩

variable {s : List Nat}

theorem StringAt.cons {p : Nat} (h0 : m p ≠ 0) (h : StringAt m (p + 1) s) :
    StringAt m p (m p :: s) := by
  refine ⟨?_, ?_, ?_⟩
  · intro i hi
    cases i with
    | zero => rfl
    | succ i =>
      have := h.bytes i (by simpa using hi)
      rwa [add_assoc, add_comm 1] at this
  · intro b hb
    rcases mem_cons.mp hb with rfl | hb
    · exact h0
    · exact h.solid b hb
  · have := h.ends
    rwa [add_assoc, add_comm 1] at this

theorem StringAt.head {p c : Nat} (h : StringAt m p (c :: s)) : m p = c :=
  h.bytes 0 (by simp)

theorem StringAt.tail {p c : Nat} (h : StringAt m p (c :: s)) : StringAt m (p + 1) s := by
  refine ⟨?_, fun b hb => h.solid b (.tail _ hb), ?_⟩
  · intro i hi
    rw [show p + 1 + i = p + (i + 1) by omega]
    exact h.bytes (i + 1) (by simpa using hi)
  · have := h.ends
    rwa [length_cons, add_comm s.length, ← add_assoc] at this

theorem StringAt.congr {p p' : Nat} (h : StringAt m p s)
    (he : ∀ i, i ≤ s.length → m' (p' + i) = m (p + i)) : StringAt m' p' s :=
  ⟨fun i hi => (he i (by omega)).trans (h.bytes i hi), h.solid, (he _ le_rfl).trans h.ends⟩

/-- `while ((*p++ = *s++) != 0);`: the memory and the pointer after it, for
at most so many bytes. -/
def strcpy (src : Memory) : Nat → Memory → Nat → Nat → Option (Memory × Nat)
  | 0, _, _, _ => none
  | fuel + 1, m, p, s =>
    if src s = 0 then some (update m p (src s), p + 1)
    else strcpy src fuel (update m p (src s)) (p + 1) (s + 1)

def strlen (m : Memory) : Nat → Nat → Option Nat
  | 0, _ => none
  | fuel + 1, p => if m p = 0 then some 0 else (strlen m fuel (p + 1)).map (· + 1)

theorem strlen_eq : ∀ {s : List Nat} {fuel p : Nat}, StringAt m p s → s.length < fuel →
    strlen m fuel p = some s.length := by
  intro s
  induction s with
  | nil =>
    intro fuel p h hf
    obtain ⟨fuel, rfl⟩ : ∃ k, fuel = k + 1 := ⟨fuel - 1, by omega⟩
    rw [strlen, if_pos (by simpa using h.ends)]
    rfl
  | cons c s ih =>
    intro fuel p h hf
    obtain ⟨fuel, rfl⟩ : ∃ k, fuel = k + 1 := ⟨fuel - 1, by omega⟩
    have hc : m p ≠ 0 := by rw [h.head]; exact h.solid c (by simp)
    rw [strlen, if_neg hc, ih h.tail (by simp at hf; omega)]
    rfl

/-- What the copying loop leaves: the string at `p`, and everything else as
it was. -/
theorem strcpy_eq (src : Memory) : ∀ {str : List Nat} (fuel p s : Nat) (m : Memory),
    StringAt src s str → str.length < fuel →
    ∃ m', strcpy src fuel m p s = some (m', p + str.length + 1) ∧ StringAt m' p str ∧
      ∀ b, b < p ∨ p + str.length + 1 ≤ b → m' b = m b := by
  intro str
  induction str with
  | nil =>
    intro fuel p s m h hf
    obtain ⟨fuel, rfl⟩ : ∃ k, fuel = k + 1 := ⟨fuel - 1, by omega⟩
    have h0 : src s = 0 := by simpa using h.ends
    refine ⟨update m p (src s), ?_, .nil ?_, ?_⟩
    · rw [strcpy, if_pos h0]
      rfl
    · rw [update_self, h0]
    · intro b hb
      exact update_of_ne (by omega) _ _
  | cons c str ih =>
    intro fuel p s m h hf
    obtain ⟨fuel, rfl⟩ : ∃ k, fuel = k + 1 := ⟨fuel - 1, by omega⟩
    have hc : src s ≠ 0 := by rw [h.head]; exact h.solid c (by simp)
    obtain ⟨m', he, hs, hk⟩ := ih fuel (p + 1) (s + 1) (update m p (src s)) h.tail
      (by simp at hf; omega)
    have hp : m' p = c := by simp [hk p (by omega), h.head]
    refine ⟨m', ?_, ?_, ?_⟩
    · rw [strcpy, if_neg hc, he, length_cons]
      congr 2
      omega
    · rw [← hp]
      exact .cons (by rw [hp]; exact h.solid c (by simp)) hs
    · intro b hb
      rw [length_cons] at hb
      rw [hk b (by omega), update_of_ne (by omega)]

end Dancy.Lib
