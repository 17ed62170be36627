import Mathlib.Tactic.Common

/-!
# Programs with a state and errors

A program changes a state and returns a value or an error. `Triple P m Q E`
is the usual statement about one: from a state with `P` it ends in a state
with `Q` and its value, or with an error in a state with `E`.
-/

namespace Dancy.Lib

universe u

/-- A program over states `σ` with errors `ε`. -/
def Prog (ε σ α : Type u) : Type u := σ → Except ε α × σ

namespace Prog

variable {ε σ α β : Type u}

instance : Monad (Prog ε σ) where
  pure a := fun s => (.ok a, s)
  bind m f := fun s =>
    match m s with
    | (.ok a, s) => f a s
    | (.error e, s) => (.error e, s)

def fail (e : ε) : Prog ε σ α := fun s => (.error e, s)

def act (f : σ → α × σ) : Prog ε σ α := fun s => (.ok (f s).1, (f s).2)

def gets (f : σ → α) : Prog ε σ α := fun s => (.ok (f s), s)

def update (f : σ → σ) : Prog ε σ PUnit := fun s => (.ok ⟨⟩, f s)

/-- The errors that `caught` knows are given to the caller as a value. -/
def attempt {δ : Type u} (caught : ε → Option δ) (m : Prog ε σ α) : Prog ε σ (Except δ α) :=
  fun s =>
    match m s with
    | (.ok a, s) => (.ok (.ok a), s)
    | (.error e, s) =>
      match caught e with
      | some d => (.ok (.error d), s)
      | none => (.error e, s)

/-- `if (c) return e;` -/
def failIf (c : Prop) [Decidable c] (e : ε) : Prog ε σ PUnit := if c then fail e else pure ⟨⟩

theorem bind_ok {m : Prog ε σ α} {f : α → Prog ε σ β} {s s' : σ} {a : α}
    (h : m s = (.ok a, s')) : (m >>= f) s = f a s' := by
  show (match m s with | (.ok a, s) => f a s | (.error e, s) => (.error e, s)) = _
  rw [h]

theorem bind_error {m : Prog ε σ α} {f : α → Prog ε σ β} {s s' : σ} {e : ε}
    (h : m s = (.error e, s')) : (m >>= f) s = (.error e, s') := by
  show (match m s with | (.ok a, s) => f a s | (.error e, s) => (.error e, s)) = _
  rw [h]

end Prog

/-- Where a program ends, from every state with `P`. -/
def Triple {ε σ α : Type u} (P : σ → Prop) (m : Prog ε σ α) (Q : α → σ → Prop)
    (E : σ → Prop) : Prop :=
  ∀ s, P s → (∀ a, (m s).1 = .ok a → Q a (m s).2) ∧ (∀ e, (m s).1 = .error e → E (m s).2)

namespace Triple

variable {ε σ α β : Type u} {P P' : σ → Prop} {Q Q' : α → σ → Prop} {R : β → σ → Prop}
  {E : σ → Prop} {m : Prog ε σ α} {f : α → Prog ε σ β}

theorem pure {a : α} (h : ∀ s, P s → Q a s) :
    Triple P (Pure.pure a : Prog ε σ α) Q E := by
  intro s hs
  refine ⟨fun a' ha => ?_, nofun⟩
  cases ha
  exact h s hs

theorem fail {e : ε} (h : ∀ s, P s → E s) : Triple P (Prog.fail e : Prog ε σ α) Q E :=
  fun s hs => ⟨nofun, fun _ _ => h s hs⟩

theorem act {g : σ → α × σ} (h : ∀ s, P s → Q (g s).1 (g s).2) :
    Triple P (Prog.act g : Prog ε σ α) Q E := by
  intro s hs
  refine ⟨fun a ha => ?_, nofun⟩
  cases ha
  exact h s hs

theorem gets {g : σ → α} (h : ∀ s, P s → Q (g s) s) : Triple P (Prog.gets g : Prog ε σ α) Q E := by
  intro s hs
  refine ⟨fun a ha => ?_, nofun⟩
  cases ha
  exact h s hs

theorem update {g : σ → σ} {Q : PUnit → σ → Prop} (h : ∀ s, P s → Q ⟨⟩ (g s)) :
    Triple P (Prog.update g : Prog ε σ PUnit) Q E :=
  fun s hs => ⟨fun _ _ => h s hs, nofun⟩

theorem attempt {δ : Type u} {caught : ε → Option δ} {F : Except δ α → σ → Prop}
    (hm : Triple P m (fun a s => F (.ok a) s) fun s => E s ∧ ∀ d, F (.error d) s) :
    Triple P (Prog.attempt caught m) F E := by
  intro s hs
  obtain ⟨hok, herr⟩ := hm s hs
  unfold Prog.attempt
  rcases hms : m s with ⟨e | a, s'⟩
  · rw [hms] at herr
    obtain ⟨he, hf⟩ := herr e rfl
    rcases hc : caught e with _ | d
    · simp only [hc]
      exact ⟨nofun, fun _ _ => he⟩
    · simp only [hc]
      refine ⟨fun r hr => ?_, nofun⟩
      cases hr
      exact hf d
  · rw [hms] at hok
    refine ⟨fun r hr => ?_, nofun⟩
    cases hr
    exact hok a rfl

theorem attempted {δ : Type u} {caught : ε → Option δ} (hm : Triple P m Q E) :
    Triple P (Prog.attempt caught m)
      (fun r s => match r with | .ok a => Q a s | .error _ => E s) E :=
  attempt fun s hs => ⟨(hm s hs).1, fun e he => ⟨(hm s hs).2 e he, fun _ => (hm s hs).2 e he⟩⟩

theorem ite {c : Prop} [Decidable c] {m' : Prog ε σ α} (ht : c → Triple P m Q E)
    (he : ¬c → Triple P m' Q E) : Triple P (if c then m else m') Q E := by
  by_cases hc : c
  · rw [if_pos hc]
    exact ht hc
  · rw [if_neg hc]
    exact he hc

/-- A sequence: what the first part leaves is what the second starts with. -/
theorem bind (hm : Triple P m Q E) (hf : ∀ a, Triple (Q a) (f a) R E) :
    Triple P (m >>= f) R E := by
  intro s hs
  obtain ⟨hok, herr⟩ := hm s hs
  rcases hms : m s with ⟨e | a, s'⟩
  · rw [hms] at herr
    rw [Prog.bind_error hms]
    exact ⟨nofun, fun _ _ => herr e rfl⟩
  · rw [hms] at hok
    rw [Prog.bind_ok hms]
    exact hf a s' (hok a rfl)

theorem weaken (h : Triple P m Q E) (hp : ∀ s, P' s → P s) (hq : ∀ a s, Q a s → Q' a s) :
    Triple P' m Q' E :=
  fun s hs => ⟨fun a ha => hq a _ ((h s (hp s hs)).1 a ha), (h s (hp s hs)).2⟩

theorem pre (h : Triple P m Q E) (hp : ∀ s, P' s → P s) : Triple P' m Q E :=
  h.weaken hp fun _ _ => id

theorem onError {E' : σ → Prop} (h : Triple P m Q E) (he : ∀ s, E s → E' s) : Triple P m Q E' :=
  fun s hs => ⟨(h s hs).1, fun e h' => he _ ((h s hs).2 e h')⟩

theorem lift {φ : Prop} (h : φ → Triple P m Q E) : Triple (fun s => φ ∧ P s) m Q E :=
  fun s hs => h hs.1 s hs.2

/-- A sequence whose first part also gives a fact about its result. -/
theorem step {φ : α → Prop} (hm : Triple P m (fun a s => φ a ∧ Q a s) E)
    (hf : ∀ a, φ a → Triple (Q a) (f a) R E) : Triple P (m >>= f) R E :=
  hm.bind fun a => .lift (hf a)

theorem failIf {c : Prop} [Decidable c] {e : ε} (h : ∀ s, P s → E s) :
    Triple P (Prog.failIf c e : Prog ε σ PUnit) (fun _ s => ¬c ∧ P s) E := by
  unfold Prog.failIf
  split
  · exact .fail h
  · next hc => exact .pure fun s hs => ⟨hc, hs⟩

end Triple

/-- A property of the state that a program keeps, however it ends. -/
def Keeps {ε σ α : Type u} (I : σ → Prop) (m : Prog ε σ α) : Prop := Triple I m (fun _ => I) I

namespace Keeps

variable {ε σ α β δ : Type u} {I : σ → Prop} {m m' : Prog ε σ α} {f : α → Prog ε σ β}

theorem pure {a : α} : Keeps I (Pure.pure a : Prog ε σ α) := Triple.pure fun _ => id

theorem fail {e : ε} : Keeps I (Prog.fail e : Prog ε σ α) := Triple.fail fun _ => id

theorem gets {g : σ → α} : Keeps I (Prog.gets g : Prog ε σ α) := Triple.gets fun _ => id

theorem update {g : σ → σ} (h : ∀ s, I s → I (g s)) : Keeps I (Prog.update g : Prog ε σ PUnit) :=
  Triple.update h

theorem act {g : σ → α × σ} (h : ∀ s, I s → I (g s).2) : Keeps I (Prog.act g : Prog ε σ α) :=
  Triple.act h

theorem bind (hm : Keeps I m) (hf : ∀ a, Keeps I (f a)) : Keeps I (m >>= f) := Triple.bind hm hf

theorem attempt {caught : ε → Option δ} (hm : Keeps I m) : Keeps I (Prog.attempt caught m) :=
  Triple.attempt fun s hs => ⟨(hm s hs).1, fun e he => ⟨(hm s hs).2 e he, fun _ => (hm s hs).2 e he⟩⟩

theorem ite {c : Prop} [Decidable c] (ht : Keeps I m) (he : Keeps I m') :
    Keeps I (if c then m else m') :=
  Triple.ite (fun _ => ht) fun _ => he

theorem of_triple {Q : α → σ → Prop} (h : Triple I m Q I) (hq : ∀ a s, Q a s → I s) : Keeps I m :=
  h.weaken (fun _ => id) hq

theorem state (h : Keeps I m) {s : σ} (hs : I s) : I (m s).2 := by
  rcases hms : (m s).1 with e | a
  · exact (h s hs).2 e hms
  · exact (h s hs).1 a hms

end Keeps

end Dancy.Lib
