import Dancy.Kmsg.Write

/-!
# Kernel messages: reading (`misc/kmsg.c`)

`n_read` looks for a message without the lock, while messages may be written,
and copies it with the lock. The buffer as the reader sees it is `views`: what
is there at its first read of a byte, at its second one, and so on.
-/

namespace Dancy.Kmsg

open List Option

/-! ## The code -/

abbrev Views := (τ : Nat) → (i : Nat) → UInt8

/-- `if (++i >= kernel->kmsg.size) i = 0;` -/
def nextIndex (i : Nat) : Nat := if kmsgSize ≤ i + 1 then 0 else i + 1

/-- `p[i] >= '0' && p[i] <= '9'`; the second read is made after the first
test. The number is that of the reads. -/
def digitAt (views : Views) (τ i : Nat) : Bool × Nat :=
  if views τ i < 48 then (false, τ + 1) else (views (τ + 1) i ≤ 57, τ + 2)

/-- The loop of `kmsg_check` over the level; `none` when it does not end
within `fuel` digits. -/
def skipDigits (views : Views) : (fuel τ i : Nat) → Option (Nat × Nat)
  | 0, _, _ => none
  | fuel + 1, τ, i =>
    match digitAt views τ i with
    | (false, τ) => some (τ, i)
    | (true, τ) => skipDigits views fuel τ (nextIndex i)

/-- The loop over the number, without the wrap at 64 bits; `found` tells if
there was a digit. -/
def readCounter (views : Views) :
    (fuel τ i counter : Nat) → (found : Bool) → Option (Nat × Nat × Nat × Bool)
  | 0, _, _, _, _ => none
  | fuel + 1, τ, i, counter, found =>
    match digitAt views τ i with
    | (false, τ) => some (τ, i, counter, found)
    | (true, τ) =>
      readCounter views fuel (τ + 1) (nextIndex i)
        (counter * 10 + ((views τ i).toNat - 48)) true

/-- `kmsg_check`: whether it returns `0`, and the number of reads. -/
def kmsgCheck (views : Views) (fuel τ i offset : Nat) : Option (Bool × Nat) :=
  if views τ i ≠ 9 then some (false, τ + 1)
  else
    match skipDigits views fuel (τ + 1) (nextIndex i) with
    | none => none
    | some (τ, i) =>
      if views τ i ≠ 44 then some (false, τ + 1)
      else
        match readCounter views fuel (τ + 1) (nextIndex i) 0 false with
        | none => none
        | some (τ, i, counter, found) =>
          if views τ i ≠ 44 ∨ counter ≠ offset then some (false, τ + 1)
          else some (found, τ + 1)

/-- The loop of `kmsg_find`, which began at `start`: the place that it found
and the number of reads. -/
def kmsgFindLoop (views : Views) (fuel offset start : Nat) :
    (left τ i : Nat) → Option (Option Nat × Nat)
  | 0, _, _ => none
  | left + 1, τ, i =>
    let go (τ : Nat) : Option (Option Nat × Nat) := let i := nextIndex i
      if i = start then some (none, τ) else kmsgFindLoop views fuel offset start left τ i
    if views τ i = 9 then
      match kmsgCheck views fuel (τ + 1) i offset with
      | none => none
      | some (true, τ) => some (some i, τ)
      | some (false, τ) => go τ
    else go (τ + 1)

def kmsgFind (views : Views) (fuel τ i offset : Nat) : Option (Option Nat × Nat) :=
  let start := if kmsgSize ≤ i then 0 else i
  kmsgFindLoop views fuel offset start fuel τ start

/-- How `kmsg_read` ends: with bytes and the new `kmsg_find_i`, or with
`DE_RETRY`, `DE_BUFFER` or `DE_UNEXPECTED`. -/
inductive ReadEnd where
  | data (bytes : List UInt8) (i : Nat)
  | retry
  | buffer
  | unexpected

/-- The loop of `kmsg_read`. -/
def kmsgReadLoop (buf : Nat → UInt8) (size : Nat) :
    (fuel i : Nat) → List UInt8 → Option ReadEnd
  | 0, _, _ => none
  | fuel + 1, i, bytes =>
    let c := buf i
    if size ≤ bytes.length then some .buffer
    else
      let bytes := bytes ++ [c]
      if c = 10 then some (.data bytes i)
      else if c < 0x20 ∨ 0x7E < c then some .unexpected
      else kmsgReadLoop buf size fuel (nextIndex i) bytes

/-- `kmsg_read`, which holds the lock. -/
def kmsgRead (buf : Nat → UInt8) (fuel i offset size : Nat) : Option ReadEnd :=
  match kmsgCheck (fun _ => buf) fuel 0 i offset with
  | none => none
  | some (false, _) => some .retry
  | some (true, _) => kmsgReadLoop buf size fuel (nextIndex i) []

/-- What `n_read` returns: `0` with a message, `0` without one, or an error. -/
inductive ReadResult where
  | message (bytes : List UInt8)
  | notWritten
  | placeholder
  | buffer
  | unexpected
deriving DecidableEq

/-- The number of stores that were made at each read, after `w` at first:
`d` are those that messages make before it. -/
def clock (d : Nat → Nat) (w : Nat) : Nat → Nat
  | 0 => w + d 0
  | τ + 1 => clock d w τ + d (τ + 1)

/-- The loop of `n_read`, with `kmsg_find_i` as it was read: the result, the
number of stores at the end and the new `kmsg_find_i`. The lists are the
messages and, for each round, the stores that are made meanwhile. -/
def nReadLoop (rs : List (List UInt8)) (fuel findI offset size : Nat) :
    List (Nat → Nat) → (w : Nat) → Option (ReadResult × Nat × Nat)
  | [], _ => none
  | d :: ds, w =>
    match kmsgFind (fun τ => bufferAt rs (clock d w τ)) fuel 0 findI offset with
    | none => none
    | some (none, τ) => some (.placeholder, clock d w τ, findI)
    | some (some p, τ) =>
      let w := storesDone rs (doneBy rs (clock d w τ))
      match kmsgRead (bufferAt rs w) fuel p offset size with
      | none => none
      | some .retry => nReadLoop rs fuel findI offset size ds w
      | some (.data bytes i) => some (.message bytes, w, i)
      | some .buffer => some (.buffer, w, findI)
      | some .unexpected => some (.unexpected, w, findI)

/-- `n_read`, called after `w` stores. -/
def nRead (rs : List (List UInt8)) (fuel findI offset size : Nat) (ds : List (Nat → Nat))
    (w : Nat) : Option (ReadResult × Nat × Nat) :=
  let k := doneBy rs w
  if k ≤ offset then some (.notWritten, storesDone rs k, findI)
  else nReadLoop rs fuel findI offset size ds (storesDone rs k)

/-- The place on the tape at which the message `n` begins. -/
def startOf (rs : List (List UInt8)) (n : Nat) : Nat := (rs.take n).flatten.length

/-- The message `n` is still there after `w` stores: the tape has not come to
its first byte again, nor to the byte in front of it. -/
def Retained (rs : List (List UInt8)) (n w : Nat) : Prop :=
  (tapeAt rs w).length < startOf rs n + kmsgSize

variable {rs : List (List UInt8)} {n b place τ cost : Nat} {bytes : List UInt8} {views : Views}
  {c : UInt8} {S : Type} {step : S → UInt8 → S}

theorem Retained.before {w w' : Nat} (h : Retained rs n w') (hle : w ≤ w') : Retained rs n w :=
  lt_of_le_of_lt (tapeAt_grows rs hle).length_le h

theorem startOf_succ (h : n < rs.length) :
    startOf rs (n + 1) = startOf rs n + rs[n].length := by
  rw [startOf, take_succ_eq_append_getElem h, flatten_append, length_append]
  simp [startOf]

theorem flatten_startOf {j : Nat} (h : n < rs.length) (hj : j < rs[n].length) :
    rs.flatten[startOf rs n + j]? = some rs[n][j] := by
  have hsplit : rs.flatten = (rs.take n).flatten ++ (rs[n] ++ (rs.drop (n + 1)).flatten) := by
    conv => lhs; rw [← take_append_drop n rs]
    rw [flatten_append, drop_eq_getElem_cons h, flatten_cons]
  rw [hsplit, startOf, getElem?_append_right (Nat.le_add_right _ _),
    Nat.add_sub_cancel_left, getElem?_append_left hj, getElem?_eq_getElem hj]

theorem tapeAt_prefix_flatten (rs : List (List UInt8)) (w : Nat) : tapeAt rs w <+: rs.flatten := by
  have hall : tapeAt rs (history rs).length = rs.flatten := by
    simp [tapeAt, charsOf_history]
  by_cases hw : w ≤ (history rs).length
  · exact hall ▸ tapeAt_grows rs hw
  · have : tapeAt rs w = tapeAt rs (history rs).length := by
      rw [tapeAt, tapeAt, take_of_length_le (by omega), take_length]
    exact ⟨[], by simp [this, hall]⟩

theorem bufferAt_message {w j : Nat} (h : n < rs.length)
    (hdone : startOf rs (n + 1) ≤ (tapeAt rs w).length) (hret : Retained rs n w)
    (hj : j < rs[n].length) : bufferAt rs w ((startOf rs n + j) % kmsgSize) = rs[n][j] := by
  rw [startOf_succ h] at hdone
  rw [Retained] at hret
  have hlt : startOf rs n + j < (tapeAt rs w).length := by omega
  rw [(laidAt rs w).held _ hlt (by omega)]
  have hget := (tapeAt_prefix_flatten rs w).getElem hlt
  rw [hget]
  exact List.getElem_of_getElem? (flatten_startOf h hj) |>.2

/-! ## Records as the reader sees them -/

/-- What the shape of a record gives: the tab is its first byte only, and the
line feed its last one only. -/
theorem IsRecord.tail (h : IsRecord n bytes) :
    ∃ front : List UInt8, bytes = 9 :: (front ++ [10]) ∧ ∀ c ∈ front, 0x20 ≤ c ∧ c ≤ 0x7E := by
  obtain ⟨level, body, hlevel, hbody, rfl⟩ := h.shape
  refine ⟨level ++ 44 :: (decimal n ++ 44 :: body), by simp, ?_⟩
  have hdigit : ∀ c : UInt8, isDigit c = true → 0x20 ≤ c ∧ c ≤ 0x7E := by
    intro c hc
    have hd := (isDigit_iff c).mp hc
    exact ⟨le_trans (by decide) hd.1, le_trans hd.2 (by decide)⟩
  intro c hc
  rcases mem_append.mp hc with hc | hc
  · exact hdigit c (hlevel c hc)
  rcases mem_cons.mp hc with rfl | hc
  · decide
  rcases mem_append.mp hc with hc | hc
  · exact hdigit c (decimal_digits c hc)
  rcases mem_cons.mp hc with rfl | hc
  · decide
  · exact hbody c hc

theorem IsRecord.length_pos (h : IsRecord n bytes) :
    0 < bytes.length := by
  obtain ⟨front, rfl, -⟩ := h.tail
  simp

theorem startOf_of_tab (rs : List (List UInt8)) :
    (∀ r ∈ rs, ∃ n, IsRecord n r) → ∀ q, rs.flatten[q]? = some 9 →
      ∃ n < rs.length, q = startOf rs n := by
  induction rs with
  | nil =>
    intro _ q hq
    simp at hq
  | cons r rs ih =>
    intro hrec q hq
    obtain ⟨m, hm⟩ := hrec r mem_cons_self
    obtain ⟨front, hr, hfront⟩ := hm.tail
    rw [flatten_cons] at hq
    by_cases hlt : q < r.length
    · rw [getElem?_append_left hlt] at hq
      subst hr
      cases q with
      | zero => exact ⟨0, Nat.succ_pos _, rfl⟩
      | succ q =>
        rw [getElem?_cons_succ] at hq
        have hmem := mem_of_getElem? hq
        rcases mem_append.mp hmem with hmem | hmem
        · exact absurd (hfront 9 hmem).1 (by decide)
        · exact absurd (mem_singleton.mp hmem) (by decide)
    · rw [getElem?_append_right (by omega)] at hq
      obtain ⟨n, hn, hqn⟩ := ih (fun r' hr' => hrec r' (.tail r hr')) _ hq
      refine ⟨n + 1, Nat.succ_lt_succ hn, ?_⟩
      rw [startOf, take_succ_cons, flatten_cons, length_append]
      rw [startOf] at hqn
      omega

/-- The reader sees these bytes from a place on, up to its read `b`. -/
def Shows (views : Views) (b place : Nat) (l : List UInt8) : Prop :=
  ∀ τ < b, ∀ j (h : j < l.length), views τ ((place + j) % kmsgSize) = l[j]

theorem Shows.head {l : List UInt8} (h : Shows views b place (c :: l)) (hτ : τ < b) :
    views τ (place % kmsgSize) = c :=
  h τ hτ 0 (Nat.succ_pos _)

theorem Shows.tail {l : List UInt8} (h : Shows views b place (c :: l)) :
    Shows views b (place + 1) l := by
  intro τ hτ j hj
  rw [show place + 1 + j = place + (j + 1) by omega]
  exact h τ hτ (j + 1) (Nat.succ_lt_succ hj)

theorem Shows.drop {l' : List UInt8} (l : List UInt8) :
    ∀ {place : Nat}, Shows views b place (l ++ l') → Shows views b (place + l.length) l' := by
  induction l with
  | nil => exact fun h => h
  | cons c l ih =>
    intro place h
    rw [length_cons, show place + (l.length + 1) = place + 1 + l.length by omega]
    exact ih h.tail

theorem nextIndex_mod (place : Nat) : nextIndex (place % kmsgSize) = (place + 1) % kmsgSize := by
  have hlt : place % kmsgSize < kmsgSize := Nat.mod_lt _ (by decide)
  have hadd := Nat.add_mod place 1 kmsgSize
  rw [Nat.mod_eq_of_lt (show 1 < kmsgSize by decide)] at hadd
  rw [nextIndex, hadd]
  by_cases hend : kmsgSize ≤ place % kmsgSize + 1
  · simp [show place % kmsgSize + 1 = kmsgSize by omega]
  · rw [if_neg hend, Nat.mod_eq_of_lt (show place % kmsgSize + 1 < kmsgSize by omega)]

theorem digitAt_later (views : Views) (τ i : Nat) : τ < (digitAt views τ i).2 := by
  rw [digitAt]
  split
  · omega
  · exact Nat.lt_add_of_pos_right (by decide)

theorem digitAt_stable {i : Nat} {x : UInt8} (h : ∀ t < b, views t i = x)
    (hb : (digitAt views τ i).2 ≤ b) : (digitAt views τ i).1 = isDigit x := by
  have hτ := digitAt_later views τ i
  have hx : views τ i = x := h τ (by omega)
  rw [digitAt, hx] at hb ⊢
  by_cases hlow : x < 48
  · rw [if_pos hlow]
    rw [isDigit, decide_eq_false (UInt8.not_le.mpr hlow)]
    rfl
  · rw [if_neg hlow] at hb ⊢
    rw [h (τ + 1) (by omega), isDigit, decide_eq_true (UInt8.not_lt.mp hlow), Bool.true_and]

/-- The two loops over digits: `step` takes a digit, with `cost` more reads. -/
def digitLoop (views : Views) (cost : Nat) (step : S → UInt8 → S) :
    (fuel τ i : Nat) → S → Option (Nat × Nat × S)
  | 0, _, _, _ => none
  | fuel + 1, τ, i, s =>
    match digitAt views τ i with
    | (false, τ) => some (τ, i, s)
    | (true, τ) => digitLoop views cost step fuel (τ + cost) (nextIndex i) (step s (views τ i))

/-- The number so far, and whether it has a digit. -/
def takeDigit (s : Nat × Bool) (c : UInt8) : Nat × Bool := (s.1 * 10 + (c.toNat - 48), true)

theorem skipDigits_eq (views : Views) (fuel : Nat) : ∀ τ i, skipDigits views fuel τ i =
    (digitLoop views 0 (fun s _ => s) fuel τ i ()).map fun r => (r.1, r.2.1) := by
  induction fuel with
  | zero => exact fun _ _ => rfl
  | succ fuel ih =>
    intro τ i
    rw [skipDigits, digitLoop]
    rcases digitAt views τ i with ⟨_ | _, τ1⟩
    · rfl
    · exact ih τ1 (nextIndex i)

theorem readCounter_eq (views : Views) (fuel : Nat) : ∀ τ i counter found,
    readCounter views fuel τ i counter found =
      digitLoop views 1 takeDigit fuel τ i (counter, found) := by
  induction fuel with
  | zero => exact fun _ _ _ _ => rfl
  | succ fuel ih =>
    intro τ i counter found
    rw [readCounter, digitLoop]
    rcases digitAt views τ i with ⟨_ | _, τ1⟩
    · rfl
    · exact ih _ _ _ _

theorem digitLoop_later : ∀ {fuel τ i : Nat} {s : S} {r : Nat × Nat × S},
    digitLoop views cost step fuel τ i s = some r → τ < r.1 := by
  intro fuel
  induction fuel with
  | zero =>
    intro τ i s r h
    cases h
  | succ fuel ih =>
    intro τ i s r h
    have hτ := digitAt_later views τ i
    rw [digitLoop] at h
    rcases hd : digitAt views τ i with ⟨_ | _, τ1⟩
    · rw [hd] at h hτ
      obtain rfl := some.inj h
      exact hτ
    · rw [hd] at h hτ
      have := ih h
      omega

/-- Where `kmsg_check` returns. -/
theorem kmsgCheck_cases {fuel i offset : Nat} {r : Bool × Nat}
    (h : kmsgCheck views fuel τ i offset = some r) :
    (views τ i ≠ 9 ∧ r = (false, τ + 1)) ∨ views τ i = 9 ∧ ∃ τ1 i1,
      digitLoop views 0 (fun s _ => s) fuel (τ + 1) (nextIndex i) () = some (τ1, i1, ()) ∧ τ < τ1 ∧
        ((views τ1 i1 ≠ 44 ∧ r = (false, τ1 + 1)) ∨ views τ1 i1 = 44 ∧ ∃ τ2 i2 counter found,
          digitLoop views 1 takeDigit fuel (τ1 + 1) (nextIndex i1) (0, false) =
            some (τ2, i2, counter, found) ∧ τ1 < τ2 ∧ r = (if views τ2 i2 ≠ 44 ∨ counter ≠ offset then false else found, τ2 + 1)) := by
  rw [kmsgCheck] at h
  split at h
  · rename_i htab
    exact .inl ⟨htab, (some.inj h).symm⟩
  rename_i htab
  refine .inr ⟨not_not.mp htab, ?_⟩
  rw [skipDigits_eq] at h
  rcases hskip : digitLoop views 0 (fun s _ => s) fuel (τ + 1) (nextIndex i) () with _ | ⟨τ1, i1, _⟩
  · rw [hskip] at h
    cases h
  have h1 := digitLoop_later hskip
  rw [hskip] at h
  dsimp only [Option.map] at h h1
  refine ⟨τ1, i1, rfl, by omega, ?_⟩
  split at h
  · rename_i hcomma
    exact .inl ⟨hcomma, (some.inj h).symm⟩
  rename_i hcomma
  rw [readCounter_eq] at h
  rcases hread : digitLoop views 1 takeDigit fuel (τ1 + 1) (nextIndex i1) (0, false) with
    _ | ⟨τ2, i2, n, found⟩
  · rw [hread] at h
    cases h
  have h2 := digitLoop_later hread
  rw [hread] at h
  dsimp only at h h2
  refine .inr ⟨not_not.mp hcomma, τ2, i2, n, found, rfl, by omega, ?_⟩
  split at h
  · rename_i hend
    rw [if_pos hend]
    exact (some.inj h).symm
  · rename_i hend
    rw [if_neg hend]
    exact (some.inj h).symm

theorem kmsgCheck_later {fuel i offset : Nat} {r : Bool × Nat}
    (h : kmsgCheck views fuel τ i offset = some r) : τ < r.2 := by
  rcases kmsgCheck_cases h with ⟨-, rfl⟩ |
    ⟨-, τ1, i1, -, h1, ⟨-, rfl⟩ | ⟨-, τ2, i2, n, found, -, h2, rfl⟩⟩
  all_goals
    dsimp only
    omega

theorem digitLoop_stable {post : List UInt8} (hc : isDigit c = false) (ds : List UInt8) :
    (∀ d ∈ ds, isDigit d = true) → ∀ {fuel τ place τ' i' : Nat} {s s' : S},
      Shows views b place (ds ++ c :: post) →
        digitLoop views cost step fuel τ (place % kmsgSize) s = some (τ', i', s') → τ' ≤ b →
          i' = (place + ds.length) % kmsgSize ∧ s' = ds.foldl step s := by
  induction ds with
  | nil =>
    intro _ fuel τ place τ' i' s s' hs h hb
    cases fuel with
    | zero => cases h
    | succ fuel =>
      rw [digitLoop] at h
      rcases hd : digitAt views τ (place % kmsgSize) with ⟨_ | _, τ1⟩
      · rw [hd] at h
        obtain ⟨-, rfl, rfl⟩ := h
        exact ⟨rfl, rfl⟩
      rw [hd] at h
      have hτ1 := digitLoop_later h
      have hdig := digitAt_stable (fun t ht => hs.head ht)
        (by rw [hd]; exact (by omega))
      rw [hd, hc] at hdig
      cases hdig
  | cons d ds ih =>
    intro hdigits fuel τ place τ' i' s s' hs h hb
    cases fuel with
    | zero => cases h
    | succ fuel =>
      rw [digitLoop] at h
      rcases hd : digitAt views τ (place % kmsgSize) with ⟨_ | _, τ1⟩
      · rw [hd] at h
        have hτ1 : τ1 = τ' := (Prod.mk.inj (some.inj h)).1
        have hdig := digitAt_stable (fun t ht => hs.head ht)
          (show (digitAt views τ (place % kmsgSize)).2 ≤ b by rw [hd, hτ1]; exact hb)
        rw [hd, hdigits d mem_cons_self] at hdig
        cases hdig
      · rw [hd] at h
        have hτ1 := digitLoop_later h
        dsimp only at h hτ1
        rw [nextIndex_mod, hs.head (by omega)] at h
        obtain ⟨rfl, rfl⟩ := ih (fun x hx => hdigits x (.tail d hx)) hs.tail h hb
        refine ⟨?_, rfl⟩
        rw [length_cons]
        congr 1
        omega

theorem foldl_takeDigit (ds : List UInt8) : ∀ n found,
    ds.foldl takeDigit (n, found) = (decimalValue n ds, found || !ds.isEmpty) := by
  induction ds with
  | nil => exact fun n found => by simp [decimalValue]
  | cons d ds ih => exact fun n found => (ih _ _).trans (by simp [decimalValue])

/-- `kmsg_check` at a message that stays while it reads knows its number. -/
theorem kmsgCheck_stable {fuel offset τ' : Nat} {r : Bool} (hrec : IsRecord n bytes)
    (hs : Shows views b place bytes)
    (h : kmsgCheck views fuel τ (place % kmsgSize) offset = some (r, τ')) (hb : τ' ≤ b) :
    r = true ↔ n = offset := by
  obtain ⟨level, body, hlevel, -, rfl⟩ := hrec.shape
  have hcomma : isDigit 44 = false := rfl
  have hτ := kmsgCheck_later h
  rcases kmsgCheck_cases h with ⟨htab, -⟩ | ⟨-, τ1, i1, hskip, h1, hrest⟩
  · exact absurd (hs.head (by omega)) htab
  have hτ1 : τ1 < τ' := by
    rcases hrest with ⟨-, heq⟩ | ⟨-, τ2, i2, m, found, -, h2, heq⟩
    all_goals
      obtain rfl := (Prod.mk.inj heq).2
      omega
  rw [nextIndex_mod] at hskip
  obtain ⟨rfl, -⟩ := digitLoop_stable hcomma level hlevel hs.tail hskip (by omega)
  have hs1 := hs.tail.drop level
  rcases hrest with ⟨hno, -⟩ | ⟨-, τ2, i2, m, found, hread, h2, heq⟩
  · exact absurd (hs1.head (by omega)) hno
  obtain ⟨rfl, rfl⟩ := Prod.mk.inj heq
  rw [nextIndex_mod] at hread
  obtain ⟨rfl, hvalue⟩ := digitLoop_stable hcomma (decimal n) decimal_digits hs1.tail hread (by omega)
  obtain ⟨rfl, rfl⟩ := Prod.mk.inj (hvalue.trans (foldl_takeDigit _ _ _))
  have hs2 := hs1.tail.drop (decimal n)
  rw [decimalValue_decimal, hs2.head (by omega)]
  by_cases hn : n = offset
  · rw [if_neg (by simp [hn]), isEmpty_eq_false_iff.mpr (decimal_ne_nil n)]
    exact ⟨fun _ => hn, fun _ => rfl⟩
  · rw [if_pos (.inr hn)]
    exact ⟨fun htrue => absurd htrue (by decide), fun hn' => absurd hn' hn⟩

/-- The messages of a history have their numbers. -/
def Numbered (rs : List (List UInt8)) : Prop := ∀ n (h : n < rs.length), IsRecord n rs[n]

theorem numbered_records (ms : List Message) : Numbered (records 0 ms) := by
  intro n h
  have := isRecord_records ms 0 n h
  rwa [zero_add] at this

variable {n τ' fuel offset findI w size w' : Nat}

theorem startOf_mono (rs : List (List UInt8)) {m : Nat} (h : n ≤ m) :
    startOf rs n ≤ startOf rs m := by
  have hprefix : rs.take n <+: rs.take m := take_prefix_take_left h
  obtain ⟨l, hl⟩ := hprefix
  rw [startOf, startOf, ← hl, flatten_append, length_append]
  omega

theorem length_tapeAt_storesDone (rs : List (List UInt8)) (k : Nat) :
    (tapeAt rs (storesDone rs k)).length = startOf rs k := by
  rw [tapeAt_storesDone, startOf]

/-! ## The search -/

theorem clock_mono (d : Nat → Nat) (w : Nat) {τ : Nat} (h : τ ≤ τ') :
    clock d w τ ≤ clock d w τ' := by
  induction h with
  | refl => rfl
  | step _ ih => exact Nat.le_trans ih (Nat.le_add_right _ _)

theorem clock_le (d : Nat → Nat) (w τ : Nat) : w ≤ clock d w τ :=
  Nat.le_trans (Nat.le_add_right w (d 0)) (clock_mono d w (Nat.zero_le τ))

/-- A round of the search: the place is the one, or it is tried and the next is reached. -/
theorem kmsgFindLoop_succ {views : Views} {start left τ i : Nat} {r : Option Nat × Nat}
    (h : kmsgFindLoop views fuel offset start (left + 1) τ i = some r) :
    (∃ τ0 τ1, kmsgCheck views fuel τ0 i offset = some (true, τ1) ∧ r = (some i, τ1)) ∨
      ∃ τ0 τ1, τ0 < τ1 ∧ τ < τ1 ∧
        (views τ0 i ≠ 9 ∨ kmsgCheck views fuel τ0 i offset = some (false, τ1)) ∧
        ((nextIndex i = start ∧ r = (none, τ1)) ∨ nextIndex i ≠ start ∧
          kmsgFindLoop views fuel offset start left τ1 (nextIndex i) = some r) := by
  have hgo : ∀ {τ1 : Nat}, (if nextIndex i = start then some (none, τ1)
        else kmsgFindLoop views fuel offset start left τ1 (nextIndex i)) = some r →
      (nextIndex i = start ∧ r = (none, τ1)) ∨ nextIndex i ≠ start ∧
        kmsgFindLoop views fuel offset start left τ1 (nextIndex i) = some r := by
    intro τ1 hstep
    split at hstep
    · rename_i hend
      exact .inl ⟨hend, (some.inj hstep).symm⟩
    · rename_i hend
      exact .inr ⟨hend, hstep⟩
  rw [kmsgFindLoop] at h
  split at h
  · rcases hcheck : kmsgCheck views fuel (τ + 1) i offset with _ | ⟨_ | _, τ1⟩
    · rw [hcheck] at h
      cases h
    · rw [hcheck] at h
      have hτ1 := kmsgCheck_later hcheck
      dsimp only at hτ1
      exact .inr ⟨τ + 1, τ1, hτ1, by omega, .inr hcheck, hgo h⟩
    · rw [hcheck] at h
      exact .inl ⟨τ + 1, τ1, hcheck, (some.inj h).symm⟩
  · rename_i htab
    exact .inr ⟨τ, τ + 1, Nat.lt_succ_self τ, Nat.lt_succ_self τ, .inl htab, hgo h⟩

theorem nextIndex_lt (i : Nat) : nextIndex i < kmsgSize := by
  rw [nextIndex]
  split
  · decide
  · omega

theorem kmsgFindLoop_none {views : Views} {start : Nat} (left : Nat) :
    ∀ {τ i τ' : Nat}, i < kmsgSize →
      kmsgFindLoop views fuel offset start left τ i = some (none, τ') → τ < τ' ∧
        ∀ m, (∀ m', 1 ≤ m' → m' ≤ m → (i + m') % kmsgSize ≠ start) →
          ∃ τ1 < τ', views τ1 ((i + m) % kmsgSize) ≠ 9 ∨
            ∃ τ2 ≤ τ', kmsgCheck views fuel τ1 ((i + m) % kmsgSize) offset = some (false, τ2) := by
  induction left with
  | zero =>
    intro τ i τ' _ h
    cases h
  | succ left ih =>
    intro τ i τ' hi h
    have himod : (i + 0) % kmsgSize = i := Nat.mod_eq_of_lt hi
    have hnext : nextIndex i = (i + 1) % kmsgSize := by
      conv => lhs; rw [← himod, add_zero]
      exact nextIndex_mod i
    rcases kmsgFindLoop_succ h with ⟨_, _, -, heq⟩ | ⟨τ0, τ1, h0, h1, htried, hstep⟩
    · cases (Prod.mk.inj heq).1
    have htried' : ∀ τ', τ1 ≤ τ' → ∃ τ0 < τ', views τ0 i ≠ 9 ∨
        ∃ τ2 ≤ τ', kmsgCheck views fuel τ0 i offset = some (false, τ2) := fun τ' hle =>
      ⟨τ0, by omega, htried.imp_right fun hcheck => ⟨τ1, hle, hcheck⟩⟩
    rcases hstep with ⟨hend, heq⟩ | ⟨hend, hstep⟩
    · obtain rfl := (Prod.mk.inj heq).2
      refine ⟨h1, fun m hm => ?_⟩
      have hzero : m = 0 := by
        by_contra hne
        exact hm 1 (le_refl 1) (by omega) (hnext ▸ hend)
      rw [hzero, himod]
      exact htried' _ le_rfl
    obtain ⟨hlater, hall⟩ := ih (nextIndex_lt i) hstep
    refine ⟨lt_trans h1 hlater, fun m hm => ?_⟩
    cases m with
    | zero =>
      rw [himod]
      exact htried' _ (le_of_lt hlater)
    | succ m =>
      have hshift : ∀ j, (nextIndex i + j) % kmsgSize = (i + (j + 1)) % kmsgSize := by
        intro j
        rw [hnext, Nat.mod_add_mod]
        congr 1
        omega
      have hprev := hall m fun m' h1 h2 => by
        rw [hshift]
        exact hm (m' + 1) (by omega) (by omega)
      rwa [hshift] at hprev

theorem kmsgFindLoop_some {views : Views} {start : Nat} (left : Nat) : ∀ {τ i p τ' : Nat},
    i < kmsgSize → kmsgFindLoop views fuel offset start left τ i = some (some p, τ') →
      p < kmsgSize ∧ ∃ τ0, kmsgCheck views fuel τ0 p offset = some (true, τ') := by
  induction left with
  | zero =>
    intro τ i p τ' _ h
    cases h
  | succ left ih =>
    intro τ i p τ' hi h
    rcases kmsgFindLoop_succ h with ⟨τ0, τ1, hcheck, heq⟩ | ⟨_, τ1, -, -, -, hstep⟩
    · obtain ⟨⟨⟩, rfl⟩ := heq
      exact ⟨hi, τ0, hcheck⟩
    · rcases hstep with ⟨-, heq⟩ | ⟨-, hstep⟩
      · cases (Prod.mk.inj heq).1
      · exact ih (nextIndex_lt i) hstep

theorem startIndex_lt (i : Nat) : (if kmsgSize ≤ i then 0 else i) < kmsgSize := by
  split
  · decide
  · omega

/-- A message that is not found is not there any more at the end of the
search. -/
theorem not_retained_of_kmsgFind (hrs : Numbered rs) {d : Nat → Nat} (hoff : offset < rs.length)
    (hdone : startOf rs (offset + 1) ≤ (tapeAt rs w).length)
    (h : kmsgFind (fun τ => bufferAt rs (clock d w τ)) fuel 0 findI offset = some (none, τ')) :
    ¬ Retained rs offset (clock d w τ') := by
  intro hret
  have hstart := startIndex_lt findI
  rw [kmsgFind] at h
  generalize (if kmsgSize ≤ findI then 0 else findI) = start at h hstart
  have hshows : Shows (fun τ => bufferAt rs (clock d w τ)) τ' (startOf rs offset) rs[offset] := by
    intro τ hτ j hj
    refine bufferAt_message hoff ?_ (hret.before (clock_mono d w (le_of_lt hτ))) hj
    exact le_trans hdone (tapeAt_grows rs (clock_le d w τ)).length_le
  have hplace : startOf rs offset % kmsgSize < kmsgSize := Nat.mod_lt _ (by decide)
  obtain ⟨-, hall⟩ := kmsgFindLoop_none fuel hstart h
  -- The search comes to the first byte of the message.
  have hsteps : ∃ m < kmsgSize, (start + m) % kmsgSize = startOf rs offset % kmsgSize := by
    generalize startOf rs offset % kmsgSize = place at hplace
    by_cases hle : start ≤ place
    · exact ⟨place - start, by omega, by
        rw [show start + (place - start) = place by omega, Nat.mod_eq_of_lt hplace]⟩
    · exact ⟨place + kmsgSize - start, by omega, by
        simp [show start + (place + kmsgSize - start) = place + kmsgSize by omega, Nat.mod_eq_of_lt hplace]⟩
  obtain ⟨m, hm, hto⟩ := hsteps
  obtain ⟨τ1, hτ1, htried⟩ := hall m fun m' h1 h2 heq => by
    have hmod := Nat.mod_eq_of_lt hstart
    have := Lib.mod_ne_mod (q := start) (r := start + m') (N := kmsgSize) (by omega) (by omega)
    omega
  rw [hto] at htried
  obtain ⟨front, hbytes, -⟩ := (hrs offset hoff).tail
  rcases htried with htab | ⟨τ2, hτ2, hcheck⟩
  · rw [hbytes] at hshows
    exact htab (hshows.head hτ1)
  · have := (kmsgCheck_stable (hrs offset hoff) hshows hcheck hτ2).mpr rfl
    cases this

/-- `kmsg_check` with the lock: the message with this number begins at the
place, and is complete and retained. -/
theorem message_of_kmsgCheck (hrs : Numbered rs) {k τ i : Nat} (hi : i < kmsgSize)
    (h : kmsgCheck (fun _ => bufferAt rs (storesDone rs k)) fuel τ i offset = some (true, τ')) :
    ∃ _ : offset < rs.length, offset < k ∧ i = startOf rs offset % kmsgSize ∧
      Retained rs offset (storesDone rs k) := by
  have htab : bufferAt rs (storesDone rs k) i = 9 := by
    by_contra hne
    rw [kmsgCheck, if_pos hne] at h
    cases (Prod.mk.inj (some.inj h)).1
  obtain ⟨q, hq, hnear, rfl, hcell⟩ := (laidAt rs (storesDone rs k)).covered_closed
    (bufferAt_closed rs k) hi (by rw [htab]; decide)
  have hget : (rs.take k).flatten[q]? = some 9 := by
    rw [← tapeAt_storesDone, getElem?_eq_getElem hq, ← hcell, htab]
  obtain ⟨n, hn, rfl⟩ := startOf_of_tab (rs.take k) (fun r hr => by
    obtain ⟨j, hj, rfl⟩ := getElem_of_mem (mem_of_mem_take hr)
    exact ⟨j, hrs j hj⟩) q hget
  rw [length_take] at hn
  have hstart : startOf (rs.take k) n = startOf rs n := by
    rw [startOf, startOf, take_take, Nat.min_eq_left (by omega)]
  rw [hstart] at hnear h ⊢
  have hnlt : n < rs.length := by omega
  have hret : Retained rs n (storesDone rs k) := by
    rw [Retained]
    omega
  have hshows : Shows (fun _ => bufferAt rs (storesDone rs k)) τ' (startOf rs n) rs[n] := by
    intro _ _ j hj
    refine bufferAt_message hnlt ?_ hret hj
    rw [length_tapeAt_storesDone]
    exact startOf_mono rs (by omega)
  obtain rfl := (kmsgCheck_stable (hrs n hnlt) hshows h le_rfl).mp rfl
  exact ⟨hnlt, by omega, rfl, hret⟩

theorem kmsgReadLoop_spec {buf : Nat → UInt8} (front : List UInt8) :
    (∀ c ∈ front, 0x20 ≤ c ∧ c ≤ 0x7E) → ∀ {fuel place : Nat} {acc : List UInt8} {r : ReadEnd},
      (∀ b, Shows (fun _ => buf) b place (front ++ [10])) →
      kmsgReadLoop buf size fuel (place % kmsgSize) acc = some r →
        (r = .buffer ∧ size < acc.length + front.length + 1) ∨
          ∃ i, r = .data (acc ++ front ++ [10]) i ∧ acc.length + front.length + 1 ≤ size := by
  induction front with
  | nil =>
    intro _ fuel place acc r hs h
    cases fuel with
    | zero => cases h
    | succ fuel =>
      have hc : buf (place % kmsgSize) = 10 := (hs 1).head Nat.one_pos
      rw [kmsgReadLoop, hc] at h
      by_cases hfull : size ≤ acc.length
      · rw [if_pos hfull] at h
        exact .inl ⟨(some.inj h).symm, by omega⟩
      · rw [if_neg hfull, if_pos rfl] at h
        exact .inr ⟨_, by rw [append_nil]; exact (some.inj h).symm,
          by rw [length_nil]; omega⟩
  | cons c front ih =>
    intro hfront fuel place acc r hs h
    cases fuel with
    | zero => cases h
    | succ fuel =>
      obtain ⟨hlo, hhi⟩ := hfront c mem_cons_self
      have hc : buf (place % kmsgSize) = c := (hs 1).head Nat.one_pos
      have hne : c ≠ 10 := by
        rintro rfl
        simp at hlo
      rw [kmsgReadLoop, hc] at h
      by_cases hfull : size ≤ acc.length
      · rw [if_pos hfull] at h
        exact .inl ⟨(some.inj h).symm, by omega⟩
      rw [if_neg hfull, if_neg hne, if_neg (not_or.mpr
        ⟨UInt8.not_lt.mpr hlo, UInt8.not_lt.mpr hhi⟩), nextIndex_mod] at h
      have hrest := ih (fun x hx => hfront x (.tail c hx))
        (fun b => (hs b).tail) h
      rw [length_append, length_singleton] at hrest
      rw [length_cons]
      rcases hrest with ⟨hr, hsize⟩ | ⟨i, hr, hsize⟩
      · exact .inl ⟨hr, by omega⟩
      · exact .inr ⟨i, by simpa using hr, by omega⟩

/-- `kmsg_read` behind the first `k` messages: it retries, or has the message
with this number and says that the buffer is too small for it or copies it
without the tab. -/
theorem kmsgRead_spec (hrs : Numbered rs) {k i : Nat} {r : ReadEnd} (hi : i < kmsgSize)
    (h : kmsgRead (bufferAt rs (storesDone rs k)) fuel i offset size = some r) :
    r = .retry ∨ ∃ hoff : offset < rs.length, Retained rs offset (storesDone rs k) ∧
      ((r = .buffer ∧ size < rs[offset].tail.length) ∨
        ∃ j, r = .data rs[offset].tail j ∧ rs[offset].tail.length ≤ size) := by
  rw [kmsgRead] at h
  rcases hcheck : kmsgCheck (fun _ => bufferAt rs (storesDone rs k)) fuel 0 i offset with
    _ | ⟨_ | _, τ'⟩
  · rw [hcheck] at h
    cases h
  · rw [hcheck] at h
    exact .inl (some.inj h).symm
  rw [hcheck] at h
  obtain ⟨hoff, hk, rfl, hret⟩ := message_of_kmsgCheck hrs hi hcheck
  refine .inr ⟨hoff, hret, ?_⟩
  obtain ⟨front, hbytes, hfront⟩ := (hrs offset hoff).tail
  have hshows : ∀ b, Shows (fun _ => bufferAt rs (storesDone rs k)) b (startOf rs offset)
      (9 :: (front ++ [10])) := by
    intro b
    rw [← hbytes]
    intro _ _ j hj
    refine bufferAt_message hoff ?_ hret hj
    rw [length_tapeAt_storesDone]
    exact startOf_mono rs hk
  rw [nextIndex_mod] at h
  have hloop := kmsgReadLoop_spec front hfront (fun b => (hshows b).tail) h
  rw [hbytes, tail_cons, length_append, length_singleton]
  rw [nil_append, length_nil, zero_add] at hloop
  exact hloop

/-- What a read of the message `offset` with `size` bytes of room says about
the messages and the stores at its end. -/
def Answers (rs : List (List UInt8)) (offset size w : Nat) : ReadResult → Prop
  | .message bytes => ∃ h : offset < rs.length, bytes = rs[offset].tail ∧ bytes.length ≤ size
  | .buffer => ∃ h : offset < rs.length, size < rs[offset].tail.length ∧ Retained rs offset w
  | .notWritten => ∃ k ≤ offset, w = storesDone rs k
  | .placeholder => offset < rs.length ∧ startOf rs (offset + 1) ≤ (tapeAt rs w).length ∧
      ¬ Retained rs offset w
  | .unexpected => False

theorem le_storesDone_doneBy (h : startOf rs n ≤ (tapeAt rs w).length) :
    startOf rs n ≤ (tapeAt rs (storesDone rs (doneBy rs w))).length :=
  le_trans h (tapeAt_prefix_done rs w).length_le

theorem nReadLoop_spec (hrs : Numbered rs) (hoff : offset < rs.length) (ds : List (Nat → Nat)) :
    ∀ {w w' i' : Nat} {r : ReadResult}, startOf rs (offset + 1) ≤ (tapeAt rs w).length →
      nReadLoop rs fuel findI offset size ds w = some (r, w', i') →
        startOf rs (offset + 1) ≤ (tapeAt rs w').length ∧ Answers rs offset size w' r := by
  induction ds with
  | nil =>
    intro w w' i' r _ h
    cases h
  | cons d ds ih =>
    intro w w' i' r hdone h
    have hlater : ∀ τ, startOf rs (offset + 1) ≤ (tapeAt rs (clock d w τ)).length := fun τ =>
      le_trans hdone (tapeAt_grows rs (clock_le d w τ)).length_le
    rw [nReadLoop] at h
    rcases hfind : kmsgFind (fun τ => bufferAt rs (clock d w τ)) fuel 0 findI offset with
      _ | ⟨_ | p, τ⟩
    · rw [hfind] at h
      cases h
    · rw [hfind] at h
      obtain ⟨rfl, rfl, rfl⟩ := h
      exact ⟨hlater τ, hoff, hlater τ, not_retained_of_kmsgFind hrs hoff hdone hfind⟩
    have hp : p < kmsgSize := by
      exact (kmsgFindLoop_some fuel (startIndex_lt findI) hfind).1
    have hlocked := le_storesDone_doneBy (hlater τ)
    rw [hfind] at h
    dsimp only at h
    rcases hread : kmsgRead (bufferAt rs (storesDone rs (doneBy rs (clock d w τ)))) fuel p
      offset size with _ | res
    · rw [hread] at h
      cases h
    rw [hread] at h
    rcases kmsgRead_spec hrs hp hread with rfl | ⟨_, hret, ⟨rfl, hsize⟩ | ⟨j, rfl, hsize⟩⟩
    · exact ih hlocked h
    · obtain ⟨rfl, rfl, rfl⟩ := h
      exact ⟨hlocked, hoff, hsize, hret⟩
    · obtain ⟨rfl, rfl, rfl⟩ := h
      exact ⟨hlocked, hoff, rfl, hsize⟩

theorem startOf_le_of_lt_doneBy (h : n < doneBy rs w) :
    startOf rs (n + 1) ≤ (tapeAt rs (storesDone rs (doneBy rs w))).length := by
  rw [length_tapeAt_storesDone]
  exact startOf_mono rs h

theorem nRead_answers (hrs : Numbered rs) {i' : Nat} {ds : List (Nat → Nat)} {r : ReadResult}
    (h : nRead rs fuel findI offset size ds w = some (r, w', i')) :
    Answers rs offset size w' r := by
  rw [nRead] at h
  by_cases hk : doneBy rs w ≤ offset
  · rw [if_pos hk] at h
    obtain ⟨rfl, rfl, rfl⟩ := h
    exact ⟨doneBy rs w, hk, rfl⟩
  · rw [if_neg hk] at h
    have hlt : offset < doneBy rs w := by omega
    exact (nReadLoop_spec hrs (lt_of_lt_of_le hlt (doneBy_le rs w)) ds
      (startOf_le_of_lt_doneBy hlt) h).2

theorem nReadLoop_later (ds : List (Nat → Nat)) : ∀ {w w' i' : Nat} {r : ReadResult},
      nReadLoop rs fuel findI offset size ds w = some (r, w', i') →
        (tapeAt rs w).length ≤ (tapeAt rs w').length := by
  induction ds with
  | nil =>
    intro w w' i' r h
    cases h
  | cons d ds ih =>
    intro w w' i' r h
    have hclock : ∀ τ, (tapeAt rs w).length ≤ (tapeAt rs (clock d w τ)).length := fun τ =>
      (tapeAt_grows rs (clock_le d w τ)).length_le
    have hlocked : ∀ τ, (tapeAt rs w).length ≤
        (tapeAt rs (storesDone rs (doneBy rs (clock d w τ)))).length := fun τ =>
      le_trans (hclock τ) (tapeAt_prefix_done rs _).length_le
    rw [nReadLoop] at h
    split at h
    · cases h
    · simp only [some.injEq, Prod.mk.injEq] at h
      exact h.2.1 ▸ hclock _
    dsimp only at h
    split at h
    · cases h
    · exact le_trans (hlocked _) (ih h)
    all_goals
      simp only [some.injEq, Prod.mk.injEq] at h
      exact h.2.1 ▸ hlocked _

theorem nRead_later {i' : Nat} {ds : List (Nat → Nat)} {r : ReadResult}
    (h : nRead rs fuel findI offset size ds w = some (r, w', i')) :
    (tapeAt rs w).length ≤ (tapeAt rs w').length := by
  have hlocked := (tapeAt_prefix_done rs w).length_le
  rw [nRead] at h
  split at h
  · simp only [some.injEq, Prod.mk.injEq] at h
    exact h.2.1 ▸ hlocked
  · exact le_trans hlocked (nReadLoop_later ds h)

/-- A call of `n_read`, after `wait` more stores. Another reader may have
changed `kmsg_find_i`. -/
structure Call where
  (fuel findI size wait : Nat)
  ds : List (Nat → Nat)

/-- The messages that a reader sees: it goes on behind a message and behind
one that is overwritten, and asks again otherwise. Its next number and the
number of stores are given too. -/
def follow (rs : List (List UInt8)) :
    List Call → (n w : Nat) → Option (List (Nat × List UInt8) × Nat × Nat)
  | [], n, w => some ([], n, w)
  | c :: cs, n, w =>
    match nRead rs c.fuel c.findI n c.size c.ds (w + c.wait) with
    | none => none
    | some (.message bytes, w, _) =>
      match follow rs cs (n + 1) w with
      | none => none
      | some (seen, last) => some ((n, bytes) :: seen, last)
    | some (.placeholder, w, _) => follow rs cs (n + 1) w
    | some (_, w, _) => follow rs cs n w

/-- What a reader has seen that began with the message `n` and is at `n'` now:
every message from there to here once and in order, but those that are
overwritten. -/
structure Seen (rs : List (List UInt8)) (n n' w : Nat) (seen : List (Nat × List UInt8)) : Prop where
  ordered : seen.Pairwise fun a b => a.1 < b.1
  correct : ∀ a ∈ seen, n ≤ a.1 ∧ a.1 < n' ∧ ∃ h : a.1 < rs.length, a.2 = rs[a.1].tail
  retained : ∀ m, n ≤ m → m < n' → Retained rs m w → ∃ bytes, (m, bytes) ∈ seen

theorem not_retained_later (h : (tapeAt rs w).length ≤ (tapeAt rs w').length)
    (hnot : ¬ Retained rs n w) :
    ¬ Retained rs n w' := fun hret => hnot (lt_of_le_of_lt h hret)

theorem follow_later (cs : List Call) : ∀ {n w n' w' : Nat}
    {seen : List (Nat × List UInt8)}, follow rs cs n w = some (seen, n', w') →
      n ≤ n' ∧ (tapeAt rs w).length ≤ (tapeAt rs w').length := by
  induction cs with
  | nil =>
    intro n w n' w' seen h
    obtain ⟨-, rfl, rfl⟩ := h
    omega
  | cons c cs ih =>
    intro n w n' w' seen h
    have hwait := (tapeAt_grows rs (Nat.le_add_right w c.wait)).length_le
    rw [follow] at h
    rcases hread : nRead rs c.fuel c.findI n c.size c.ds (w + c.wait) with _ | ⟨r, w1, i⟩
    · rw [hread] at h
      cases h
    have hstep := le_trans hwait (nRead_later hread)
    rw [hread] at h
    cases r with
    | message bytes =>
      rcases hrest : follow rs cs (n + 1) w1 with _ | ⟨seen1, n1, w2⟩
      · simp only [hrest] at h
        cases h
      · simp only [hrest] at h
        obtain ⟨-, rfl, rfl⟩ := h
        have := ih hrest
        exact ⟨Nat.le_of_succ_le this.1, le_trans hstep this.2⟩
    | placeholder =>
      have := ih h
      omega
    | notWritten | buffer | unexpected =>
      have := ih h
      exact ⟨this.1, le_trans hstep this.2⟩

theorem follow_seen (hrs : Numbered rs) (cs : List Call) :
    ∀ {n w n' w' : Nat} {seen : List (Nat × List UInt8)},
      follow rs cs n w = some (seen, n', w') → Seen rs n n' w' seen := by
  induction cs with
  | nil =>
    intro n w n' w' seen h
    obtain ⟨rfl, rfl, rfl⟩ := h
    exact ⟨List.Pairwise.nil, by simp, fun m h1 h2 => absurd h2 (not_lt.mpr h1)⟩
  | cons c cs ih =>
    intro n w n' w' seen h
    rw [follow] at h
    rcases hread : nRead rs c.fuel c.findI n c.size c.ds (w + c.wait) with _ | ⟨r, w1, i⟩
    · rw [hread] at h
      cases h
    have hanswer := nRead_answers hrs hread
    rw [hread] at h
    cases r with
    | message bytes =>
      obtain ⟨hn, hbytes, -⟩ := hanswer
      rcases hrest : follow rs cs (n + 1) w1 with _ | ⟨seen1, n1, w2⟩
      · simp only [hrest] at h
        cases h
      simp only [hrest] at h
      obtain ⟨rfl, rfl, rfl⟩ := h
      have hlast := (follow_later cs hrest).1
      obtain ⟨hord, hexact, hret⟩ := ih hrest
      refine ⟨pairwise_cons.mpr ⟨fun a ha => (hexact a ha).1, hord⟩, ?_, ?_⟩
      · intro a ha
        rcases mem_cons.mp ha with rfl | ha
        · exact ⟨le_rfl, hlast, hn, hbytes⟩
        · obtain ⟨h1, h2⟩ := hexact a ha
          exact ⟨Nat.le_of_succ_le h1, h2⟩
      · intro m h1 h2 hm
        rcases eq_or_lt_of_le h1 with rfl | hlt
        · simp
        · obtain ⟨b, hb⟩ := hret m hlt h2 hm
          exact ⟨b, mem_cons_of_mem _ hb⟩
    | placeholder =>
      obtain ⟨hord, hexact, hret⟩ := ih h
      refine ⟨hord, fun a ha => ?_, fun m h1 h2 hm => ?_⟩
      · obtain ⟨h1, h2⟩ := hexact a ha
        exact ⟨Nat.le_of_succ_le h1, h2⟩
      · rcases eq_or_lt_of_le h1 with rfl | hlt
        · exact absurd hm (not_retained_later (follow_later cs h).2 hanswer.2.2)
        · exact hret m hlt h2 hm
    | notWritten | buffer | unexpected => exact ih h

end Dancy.Kmsg
