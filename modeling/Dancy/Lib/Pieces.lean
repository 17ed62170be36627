import Mathlib.Data.List.Infix

/-!
# Paths as pieces between separators

A path is what `List.splitOn` makes of it: the pieces between separators,
of which the last one is not closed yet. A loop that takes a path from left
to right does something with each piece when its end is met; `closedFold`
is what it has then done, and the lemmas say what one more character
changes. `resolve` is the lexical reading of a path with `.` and `..`.
-/

namespace Dancy.Lib.Pieces

open List

universe u v

variable {α : Type u} [DecidableEq α] {β : Type v}

def lastPiece (sep : α) (path : List α) : List α :=
  (path.splitOn sep).getLastD []

/-- What a loop has made of the pieces that are closed. -/
def closedFold (f : β → List α → β) (sep : α) (start : β) (path : List α) : β :=
  (path.splitOn sep).dropLast.foldl f start

variable {sep c : α} {path : List α} {f : β → List α → β} {start : β}

@[simp] theorem lastPiece_nil : lastPiece sep [] = [] := by
  simp [lastPiece]

@[simp] theorem closedFold_nil : closedFold f sep start [] = start := by
  simp [closedFold]

theorem splitOn_eq (sep : α) (path : List α) :
    path.splitOn sep = (path.splitOn sep).dropLast ++ [lastPiece sep path] := by
  have hne := splitOn_ne_nil sep path
  rw [lastPiece, getLastD_eq_getLast?, getLast?_eq_some_getLast hne, Option.getD_some,
    dropLast_concat_getLast hne]

theorem foldl_splitOn : (path.splitOn sep).foldl f start =
    f (closedFold f sep start path) (lastPiece sep path) := by
  conv_lhs => rw [splitOn_eq sep path]
  rw [foldl_append]
  rfl

/-- What holds of each character and the text before it. -/
def AtEach (P : List α → α → Prop) (path : List α) : Prop :=
  ∀ p c q, path = p ++ c :: q → P p c

omit [DecidableEq α] in
theorem AtEach.nil {P : List α → α → Prop} : AtEach P [] := by
  intro p c q h
  simp at h

omit [DecidableEq α] in
theorem AtEach.snoc {P : List α → α → Prop} (h : AtEach P path) (hc : P path c) :
    AtEach P (path ++ [c]) := by
  intro p a q hpq
  induction q using reverseRecOn with
  | nil =>
    obtain ⟨rfl, hca⟩ := append_inj' hpq rfl
    rwa [← (cons.inj hca).1]
  | append_singleton q b _ =>
    rw [show p ++ a :: (q ++ [b]) = (p ++ a :: q) ++ [b] by simp] at hpq
    exact h p a q (append_inj' hpq rfl).1

/-! ## One more character -/

theorem splitOn_snoc_self : (path ++ [sep]).splitOn sep = path.splitOn sep ++ [[]] := by
  rw [splitOn_append_cons_self, splitOn_nil]

theorem splitOn_snoc_of_ne (hc : c ≠ sep) : (path ++ [c]).splitOn sep =
    (path.splitOn sep).dropLast ++ [lastPiece sep path ++ [c]] := by
  induction path with
  | nil => simp [splitOn_cons_eq_if_modifyHead, hc]
  | cons a path ih =>
    rw [cons_append, splitOn_cons_eq_if_modifyHead, ih]
    have hne := splitOn_ne_nil sep path
    simp only [lastPiece, splitOn_cons_eq_if_modifyHead a path]
    generalize path.splitOn sep = pieces at hne
    obtain ⟨p, ps, rfl⟩ := exists_cons_of_ne_nil hne
    by_cases ha : (a == sep) = true
    · simp [ha]
    · cases ps with
      | nil | cons q qs => simp [ha]

@[simp] theorem lastPiece_snoc_self : lastPiece sep (path ++ [sep]) = [] := by
  simp [lastPiece, splitOn_snoc_self]

theorem lastPiece_snoc_of_ne (hc : c ≠ sep) :
    lastPiece sep (path ++ [c]) = lastPiece sep path ++ [c] := by
  simp [lastPiece, splitOn_snoc_of_ne hc]

@[simp] theorem closedFold_snoc_self : closedFold f sep start (path ++ [sep]) =
    f (closedFold f sep start path) (lastPiece sep path) := by
  rw [closedFold, splitOn_snoc_self, dropLast_concat, foldl_splitOn]

theorem closedFold_snoc_of_ne (hc : c ≠ sep) :
    closedFold f sep start (path ++ [c]) = closedFold f sep start path := by
  rw [closedFold, splitOn_snoc_of_ne hc, dropLast_concat]
  rfl

theorem lastPiece_eq_nil_iff : lastPiece sep path = [] ↔ path = [] ∨ path.getLast? = some sep := by
  induction path using reverseRecOn with
  | nil => simp
  | append_singleton path c _ =>
    by_cases hc : c = sep
    · subst hc
      simp
    · rw [lastPiece_snoc_of_ne hc]
      simp [hc]

theorem sep_notMem_lastPiece (sep : α) (path : List α) : sep ∉ lastPiece sep path := by
  induction path using reverseRecOn with
  | nil => simp
  | append_singleton path c ih =>
    by_cases hc : c = sep
    · subst hc
      simp
    · rw [lastPiece_snoc_of_ne hc]
      simpa [ih] using Ne.symm hc

theorem mem_of_mem_lastPiece (h : c ∈ lastPiece sep path) : c ∈ path := by
  induction path using reverseRecOn with
  | nil => simp at h
  | append_singleton path a ih =>
    by_cases ha : a = sep
    · subst ha
      simp at h
    · rw [lastPiece_snoc_of_ne ha, mem_append] at h
      exact mem_append.mpr (h.imp_left ih)

/-- What holds at the start and is kept by each piece holds of what is closed. -/
theorem closedFold_ind {P : β → Prop} (h0 : P start)
    (hstep : ∀ acc piece, P acc → sep ∉ piece → (∀ c ∈ piece, c ∈ path) → P (f acc piece)) :
    P (closedFold f sep start path) := by
  induction path using reverseRecOn with
  | nil => simpa using h0
  | append_singleton path c ih =>
    have hprev : P (closedFold f sep start path) := ih fun acc piece hacc hsep hmem =>
        hstep acc piece hacc hsep fun c hc => mem_append_left _ (hmem c hc)
    by_cases hc : c = sep
    · subst hc
      rw [closedFold_snoc_self]
      exact hstep _ _ hprev (sep_notMem_lastPiece c path) fun a ha =>
        mem_append_left _ (mem_of_mem_lastPiece ha)
    · rwa [closedFold_snoc_of_ne hc]

theorem closedFold_length_le {f : List (List α) → List α → List (List α)}
    (hf : ∀ acc piece, acc.length ≤ (f acc piece).length) (sep : α) (start : List (List α))
    (path rest : List α) :
    (closedFold f sep start path).length ≤ (closedFold f sep start (path ++ rest)).length := by
  induction rest using reverseRecOn with
  | nil => rw [append_nil]
  | append_singleton rest c ih =>
    rw [← append_assoc]
    by_cases hc : c = sep
    · subst hc
      rw [closedFold_snoc_self]
      exact ih.trans (hf _ _)
    · rwa [closedFold_snoc_of_ne hc]

theorem splitOn_flatMap : ∀ (l : List (List α)) (x : List α), sep ∉ x → (∀ y ∈ l, sep ∉ y) →
    (x ++ l.flatMap (sep :: ·)).splitOn sep = x :: l := by
  intro l
  induction l with
  | nil =>
    intro x hx _
    simp [splitOn_eq_singleton hx]
  | cons y l ih =>
    intro x hx hl
    rw [flatMap_cons, cons_append, splitOn_append_cons_self_of_not_mem hx,
      ih y (hl y (by simp)) fun z hz => hl z (by simp [hz])]

theorem exists_first (sep : α) (path : List α) :
    ∃ p q, path = p ++ q ∧ sep ∉ p ∧ (q = [] ∨ q.head? = some sep) := by
  induction path with
  | nil => simp
  | cons c path ih =>
    by_cases hc : c = sep
    · exact ⟨[], c :: path, rfl, by simp, .inr (by simp [hc])⟩
    · obtain ⟨p, q, rfl, hp, hq⟩ := ih
      exact ⟨c :: p, q, rfl, by simp [hp, Ne.symm hc], hq⟩

theorem closedFold_of_notMem (h : sep ∉ path) : closedFold f sep start path = start := by
  rw [closedFold, splitOn_eq_singleton h]
  rfl

def keep (acc : List (List α)) (piece : List α) : List (List α) :=
  if piece = [] then acc else acc ++ [piece]

omit [DecidableEq α] in
theorem length_le_keep (acc : List (List α)) (piece : List α) :
    acc.length ≤ (keep acc piece).length := by
  rw [keep]
  split
  · exact le_rfl
  · rw [length_append]
    exact Nat.le_add_right _ _

omit [DecidableEq α] in
theorem foldl_keep {l acc : List (List α)} (h : ∀ x ∈ l, x ≠ []) : l.foldl keep acc = acc ++ l := by
  induction l generalizing acc with
  | nil => simp
  | cons a l ih =>
    have ha : keep acc a = acc ++ [a] := if_neg (h a (by simp))
    rw [foldl_cons, ha, ih fun x hx => h x (by simp [hx])]
    simp

/-! ## Lexical normalization -/

variable {dot : α} {acc : List (List α)} {piece : List α}

/-- The names collected so far after one more piece: nothing for an empty
piece and for `.`, one name less for `..`, if there is one. -/
def enter (dot : α) (acc : List (List α)) (piece : List α) : List (List α) :=
  if piece = [] ∨ piece = [dot] then acc
  else if piece = [dot, dot] then acc.dropLast
  else acc ++ [piece]

/-- The names of a path, followed from the names in `start`. -/
def resolve (sep dot : α) (start : List (List α)) (path : List α) : List (List α) :=
  (path.splitOn sep).foldl (enter dot) start

/-- The names without the piece after the last separator. -/
def closed (sep dot : α) (start : List (List α)) (path : List α) : List (List α) :=
  closedFold (enter dot) sep start path

def Ordinary (dot : α) (piece : List α) : Prop :=
  piece ≠ [] ∧ piece ≠ [dot] ∧ piece ≠ [dot, dot]

instance : Decidable (Ordinary dot piece) := inferInstanceAs (Decidable (_ ∧ _))

theorem resolve_eq (sep dot : α) (start : List (List α)) (path : List α) :
    resolve sep dot start path = enter dot (closed sep dot start path) (lastPiece sep path) :=
  foldl_splitOn

@[simp] theorem enter_nil : enter dot acc [] = acc := by simp [enter]

@[simp] theorem enter_dot : enter dot acc [dot] = acc := by simp [enter]

@[simp] theorem enter_dots : enter dot acc [dot, dot] = acc.dropLast := by simp [enter]

theorem enter_ordinary (h : Ordinary dot piece) : enter dot acc piece = acc ++ [piece] := by
  obtain ⟨hnil, hdot, hdots⟩ := h
  rw [enter, if_neg (by simp [hnil, hdot]), if_neg hdots]

theorem length_enter_le (dot : α) (acc : List (List α)) (piece : List α) :
    (enter dot acc piece).length ≤ acc.length + 1 := by
  simp only [enter]
  split
  · omega
  · split
    · rw [length_dropLast]
      omega
    · rw [length_append, length_singleton]

theorem mem_enter {x : List α} (h : x ∈ enter dot acc piece) :
    x ∈ acc ∨ Ordinary dot piece ∧ x = piece := by
  by_cases ho : Ordinary dot piece
  · rw [enter_ordinary ho, mem_append, mem_singleton] at h
    exact h.imp_right fun hx => ⟨ho, hx⟩
  simp only [enter] at h
  split at h
  · exact .inl h
  · next hne =>
    split at h
    · exact .inl (mem_of_mem_dropLast h)
    · next hdots => exact absurd ⟨fun hn => hne (.inl hn), fun hd => hne (.inr hd), hdots⟩ ho

theorem length_foldl_enter_le (dot : α) (l acc : List (List α)) :
    (l.foldl (enter dot) acc).length ≤ acc.length + l.length := by
  induction l generalizing acc with
  | nil => simp
  | cons a l ih =>
    have := length_enter_le dot acc a
    have := ih (enter dot acc a)
    rw [foldl_cons, length_cons]
    omega

theorem length_closed_le (sep dot : α) (start : List (List α)) (path : List α) :
    (closed sep dot start path).length ≤ start.length + path.length := by
  induction path using reverseRecOn with
  | nil => simp [closed]
  | append_singleton path c ih =>
    rw [length_append, length_singleton]
    by_cases hc : c = sep
    · subst hc
      have := length_enter_le dot (closed c dot start path) (lastPiece c path)
      rw [closed, closedFold_snoc_self]
      rw [closed] at this ih
      omega
    · rw [closed, closedFold_snoc_of_ne hc]
      rw [closed] at ih
      omega

theorem ordinary_of_mem_closed {start : List (List α)}
    (hstart : ∀ x ∈ start, Ordinary dot x ∧ sep ∉ x) :
    ∀ x ∈ closed sep dot start path, Ordinary dot x ∧ sep ∉ x := by
  refine closedFold_ind (P := fun acc => ∀ x ∈ acc, Ordinary dot x ∧ sep ∉ x) hstart ?_
  intro acc piece hacc hsep _ x hx
  rcases mem_enter hx with hx | ⟨ho, rfl⟩
  · exact hacc x hx
  · exact ⟨ho, hsep⟩

theorem foldl_enter_ordinary {l : List (List α)} (h : ∀ x ∈ l, Ordinary dot x) :
    l.foldl (enter dot) acc = acc ++ l := by
  induction l generalizing acc with
  | nil => simp
  | cons a l ih =>
    rw [foldl_cons, enter_ordinary (h a (by simp)), ih fun x hx => h x (by simp [hx])]
    simp

end Dancy.Lib.Pieces
