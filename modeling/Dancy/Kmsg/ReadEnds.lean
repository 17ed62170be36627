import Dancy.Kmsg.Read

/-!
# A read of a kernel message ends

Stores may go on while digits are read, so a number may be read for longer
than once around the buffer; but there is always a byte that is no digit, and
each store puts it off once around at most. A round of `n_read` is made again
only when another message is complete.
-/

namespace Dancy.Kmsg

open List Option

theorem kmsgSize_pos : 0 < kmsgSize := by decide

theorem length_textLoop (m : List UInt8) : ∀ r ≤ 260, (textLoop r m).length + r ≤ 260 := by
  induction m with
  | nil =>
    intro r hr
    rw [textLoop, length_nil]
    omega
  | cons c m ih =>
    intro r hr
    rw [textLoop]
    split
    · rw [length_nil]
      omega
    split
    · rw [length_nil]
      omega
    split
    · have := ih (r + 4) (by omega)
      rw [length_append, length_cons, length_cons, length_cons, length_cons, length_nil]
      omega
    · have := ih (r + 1) (by omega)
      rw [length_cons]
      omega

theorem length_messageBytes {counter : Nat} {m : Message} {bytes : List UInt8}
    (h : messageBytes counter m = some bytes) : bytes.length ≤ 261 := by
  simp only [messageBytes] at h
  split at h
  · cases h
  split at h
  · cases h
  next hstart =>
    obtain rfl := some.inj h
    have := length_textLoop (levelOf m.text).2
      (prefixOf (levelOf m.text).1 counter m.time).length (by omega)
    rw [length_append, length_append, length_singleton]
    omega

theorem length_records (ms : List Message) : ∀ counter, ∀ r ∈ records counter ms,
    r.length ≤ 261 := by
  induction ms with
  | nil =>
    intro counter r hr
    cases hr
  | cons m ms ih =>
    intro counter r hr
    rw [records] at hr
    rcases hm : messageBytes counter m with _ | bytes
    · rw [hm] at hr
      exact ih counter r hr
    · rw [hm] at hr
      rcases mem_cons.mp hr with rfl | hr
      · exact length_messageBytes hm
      · exact ih _ r hr

theorem exists_last_message (rs : List (List UInt8)) {T : Nat} (hT : 0 < T) :
    ∀ n, T ≤ startOf rs n → ∃ m < n, startOf rs m < T ∧ T ≤ startOf rs (m + 1) := by
  intro n
  induction n with
  | zero =>
    intro h
    rw [startOf, take_zero, flatten_nil, length_nil] at h
    omega
  | succ n ih =>
    intro h
    by_cases hlt : startOf rs n < T
    · exact ⟨n, Nat.lt_succ_self n, hlt, h⟩
    · obtain ⟨m, hm, hrest⟩ := ih (by omega)
      exact ⟨m, Nat.lt_succ_of_lt hm, hrest⟩

theorem exists_not_digit {rs : List (List UInt8)} (hrs : Numbered rs)
    (hshort : ∀ r ∈ rs, r.length ≤ 261) (w : Nat) :
    ∃ p < kmsgSize, isDigit (bufferAt rs w p) = false := by
  rcases Nat.eq_zero_or_pos (tapeAt rs w).length with hzero | hpos
  · have hcell : bufferAt rs w 1 = 0 := by
      by_contra hne
      obtain ⟨q, hq, -⟩ := (laidAt rs w).covered 1 (by decide)
        (by rw [hzero, Nat.zero_mod]; decide) hne
      omega
    exact ⟨1, by decide, by rw [hcell]; rfl⟩
  · have htotal : (tapeAt rs w).length ≤ startOf rs rs.length := by
      rw [startOf, take_length]
      exact (tapeAt_prefix_flatten rs w).length_le
    obtain ⟨n, hn, hstart, hend⟩ := exists_last_message rs hpos _ htotal
    have hlen := hshort _ (getElem_mem hn)
    have hfirst := (hrs n hn).length_pos
    rw [startOf_succ hn] at hend
    have hsize : 261 < kmsgSize := by decide
    refine ⟨startOf rs n % kmsgSize, Nat.mod_lt _ kmsgSize_pos, ?_⟩
    have hcell := (laidAt rs w).held (startOf rs n) hstart (by omega)
    have hget := (tapeAt_prefix_flatten rs w).getElem hstart
    have hflat := List.getElem_of_getElem? (flatten_startOf hn hfirst) |>.2
    obtain ⟨front, hbytes, -⟩ := (hrs n hn).tail
    have htab : rs[n][0] = 9 := by
      simp [hbytes]
    rw [hcell, hget]
    simp only [add_zero] at hflat
    rw [hflat, htab]
    rfl

/-! ## Reading digits -/

/-- The buffer changes at most `L` times, and there is always a byte that is
no digit. -/
structure Settles (views : Views) (c : Nat → Nat) (L : Nat) : Prop where
  mono : ∀ {τ τ'}, τ ≤ τ' → c τ ≤ c τ'
  bound : ∀ τ, c τ ≤ L
  same : ∀ {τ τ'}, c τ = c τ' → views τ = views τ'
  stop : ∀ τ, ∃ p < kmsgSize, isDigit (views τ p) = false

/-- A scan of digits from here makes at most `m` steps more. -/
def Within (views : Views) (c : Nat → Nat) (L m τ i : Nat) : Prop :=
  ∃ p < kmsgSize, isDigit (views τ p) = false ∧
    (L - c τ) * kmsgSize + (p + kmsgSize - i) % kmsgSize ≤ m

variable {views : Views} {c : Nat → Nat} {L : Nat}

theorem Settles.within (h : Settles views c L) (τ i : Nat) :
    Within views c L ((L + 1) * kmsgSize) τ i := by
  obtain ⟨p, hp, hstop⟩ := h.stop τ
  refine ⟨p, hp, hstop, ?_⟩
  have hmod := Nat.mod_lt (p + kmsgSize - i) kmsgSize_pos
  have hle : (L - c τ) * kmsgSize ≤ L * kmsgSize := Nat.mul_le_mul_right _ (Nat.sub_le _ _)
  rw [Nat.succ_mul]
  omega

variable {i τ fuel offset findI size b : Nat} {buf : Nat → UInt8} {rs : List (List UInt8)}

theorem dist_next {p : Nat} (hi : i < kmsgSize) (hp : p < kmsgSize) (hne : i ≠ p) :
    (p + kmsgSize - nextIndex i) % kmsgSize + 1 = (p + kmsgSize - i) % kmsgSize := by
  rw [nextIndex]
  rcases lt_or_gt_of_ne hne with hlt | hgt
  · have hnext : ¬ kmsgSize ≤ i + 1 := by omega
    rw [if_neg hnext, show p + kmsgSize - (i + 1) = p - (i + 1) + kmsgSize by omega,
      show p + kmsgSize - i = p - i + kmsgSize by omega, Nat.add_mod_right, Nat.add_mod_right,
      Nat.mod_eq_of_lt (by omega), Nat.mod_eq_of_lt (by omega)]
    omega
  rw [Nat.mod_eq_of_lt (show p + kmsgSize - i < kmsgSize by omega)]
  split
  · rw [Nat.sub_zero, Nat.add_mod_right, Nat.mod_eq_of_lt hp]
    omega
  · rw [Nat.mod_eq_of_lt (by omega)]
    omega

section

variable {cost : Nat} {S : Type} {f : S → UInt8 → S} (h : Settles views c L)
include h

theorem Within.step {m τ' : Nat} (hi : i < kmsgSize) (hτ : τ + 2 ≤ τ')
    (hdigit : (digitAt views τ i).1 = true) (hm : Within views c L m τ i) :
    0 < m ∧ Within views c L (m - 1) τ' (nextIndex i) := by
  obtain ⟨p, hp, hstop, hle⟩ := hm
  have hmono : c τ ≤ c τ' := h.mono (by omega)
  by_cases hsame : c τ' = c τ
  · -- The same buffer: the next place is nearer to the stop.
    have hbefore : c (τ + 1) = c τ := by
      have h1 : c τ ≤ c (τ + 1) := h.mono (by omega)
      have h2 : c (τ + 1) ≤ c τ' := h.mono (by omega)
      omega
    have hdig : isDigit (views τ i) = true := by
      rw [digitAt] at hdigit
      split at hdigit
      · cases hdigit
      next hlow =>
        rw [h.same hbefore] at hdigit
        dsimp only at hdigit
        rw [isDigit, hdigit, decide_eq_true (UInt8.not_lt.mp hlow)]
        rfl
    have hne : i ≠ p := by
      rintro rfl
      rw [hdig] at hstop
      cases hstop
    have hdist := dist_next hi hp hne
    refine ⟨by omega, p, hp, by rw [h.same hsame]; exact hstop, ?_⟩
    rw [hsame]
    omega
  · obtain ⟨p', hp', hstop'⟩ := h.stop τ'
    have hbound := h.bound τ'
    have hmul : (L - c τ' + 1) * kmsgSize ≤ (L - c τ) * kmsgSize :=
      Nat.mul_le_mul_right _ (by omega)
    have hmod := Nat.mod_lt (p' + kmsgSize - nextIndex i) kmsgSize_pos
    rw [Nat.succ_mul] at hmul
    exact ⟨by omega, p', hp', hstop', by omega⟩

theorem digitLoop_ends (fuel : Nat) : ∀ {m τ i : Nat} {s : S}, i < kmsgSize →
    m < fuel → Within views c L m τ i →
      ∃ τ' i' s', digitLoop views cost f fuel τ i s = some (τ', i', s') ∧ i' < kmsgSize := by
  induction fuel with
  | zero =>
    intro m τ i s _ hm _
    cases hm
  | succ fuel ih =>
    intro m τ i s hi hm hw
    have hlater : (digitAt views τ i).1 = true → τ + 2 ≤ (digitAt views τ i).2 + cost := by
      rw [digitAt]
      split
      · intro htrue
        cases htrue
      · exact fun _ => Nat.le_add_right _ _
    rw [digitLoop]
    rcases hd : digitAt views τ i with ⟨_ | _, τ1⟩
    · exact ⟨τ1, i, s, rfl, hi⟩
    · rw [hd] at hlater
      obtain ⟨hpos, hnext⟩ := hw.step h hi (hlater rfl) (by rw [hd])
      exact ih (nextIndex_lt i) (by omega) hnext

end

section

variable (h : Settles views c L) (hfuel : (L + 1) * kmsgSize < fuel)
include h hfuel

theorem kmsgCheck_ends : (kmsgCheck views fuel τ i offset).isSome = true := by
  rw [kmsgCheck]
  split
  · rfl
  obtain ⟨τ1, i1, _, hskip, hi1⟩ :=
    digitLoop_ends h fuel (nextIndex_lt i) hfuel (h.within (τ + 1) (nextIndex i))
  rw [skipDigits_eq, hskip]
  dsimp only [Option.map]
  split
  · rfl
  obtain ⟨τ2, i2, s2, hread, -⟩ :=
    digitLoop_ends h fuel (nextIndex_lt i1) hfuel (h.within (τ1 + 1) (nextIndex i1))
  rw [readCounter_eq, hread]
  dsimp only
  split
  · rfl
  · rfl

theorem kmsgFindLoop_ends {start : Nat} (left : Nat) : ∀ {τ i m : Nat}, i < kmsgSize → m < left →
      (i + m + 1) % kmsgSize = start →
        (kmsgFindLoop views fuel offset start left τ i).isSome = true := by
  induction left with
  | zero =>
    intro τ i m _ hm _
    cases hm
  | succ left ih =>
    intro τ i m hi hm hto
    have hnext : nextIndex i = (i + 1) % kmsgSize := by
      conv => lhs; rw [← Nat.mod_eq_of_lt hi]
      exact nextIndex_mod i
    have hgo : ∀ τ, (if nextIndex i = start then some (none, τ)
        else kmsgFindLoop views fuel offset start left τ (nextIndex i)).isSome = true := by
      intro τ
      by_cases hend : nextIndex i = start
      · rw [if_pos hend]
        rfl
      rw [if_neg hend]
      cases m with
      | zero => exact absurd (hnext.trans hto) hend
      | succ m =>
        refine ih (nextIndex_lt i) (Nat.lt_of_succ_lt_succ hm) ?_
        rw [hnext, add_assoc, Nat.mod_add_mod, ← hto]
        congr 1
        omega
    rw [kmsgFindLoop]
    split
    · obtain ⟨⟨r, τ1⟩, hcheck⟩ := isSome_iff_exists.mp (kmsgCheck_ends h hfuel)
      rw [hcheck]
      cases r with
      | false => exact hgo τ1
      | true => rfl
    · exact hgo _

theorem kmsgFind_ends : (kmsgFind views fuel τ findI offset).isSome = true := by
  have hstart := startIndex_lt findI
  rw [kmsgFind]
  generalize (if kmsgSize ≤ findI then 0 else findI) = start at hstart
  have hsize : kmsgSize ≤ (L + 1) * kmsgSize := Nat.le_mul_of_pos_left _ (Nat.succ_pos L)
  refine kmsgFindLoop_ends h hfuel fuel (m := kmsgSize - 1) hstart (by omega) ?_
  simp [show start + (kmsgSize - 1) + 1 = start + kmsgSize by omega, Nat.mod_eq_of_lt hstart]

end

theorem kmsgReadLoop_ends (fuel : Nat) :
    ∀ {i : Nat} {bytes : List UInt8}, bytes.length ≤ size → size < bytes.length + fuel →
      (kmsgReadLoop buf size fuel i bytes).isSome = true := by
  induction fuel with
  | zero =>
    intro i bytes hle hlt
    omega
  | succ fuel ih =>
    intro i bytes hle hlt
    rw [kmsgReadLoop]
    iterate 3
      split
      · rfl
    refine ih ?_ ?_
    all_goals
      rw [length_append, length_singleton]
      omega

theorem Settles.quiet (h : ∃ p < kmsgSize, isDigit (buf p) = false) :
    Settles (fun _ => buf) (fun _ => 0) 0 where
  mono _ := le_refl 0
  bound _ := le_refl 0
  same _ := rfl
  stop _ := h

theorem kmsgRead_ends (h : ∃ p < kmsgSize, isDigit (buf p) = false) (hfuel : kmsgSize < fuel)
    (hsize : size < fuel) :
    (kmsgRead buf fuel i offset size).isSome = true := by
  have hends : (kmsgCheck (fun _ => buf) fuel 0 i offset).isSome = true :=
    kmsgCheck_ends (Settles.quiet h) (by omega)
  obtain ⟨⟨r, τ⟩, hcheck⟩ := isSome_iff_exists.mp hends
  rw [kmsgRead, hcheck]
  cases r with
  | false => rfl
  | true => exact kmsgReadLoop_ends fuel (Nat.zero_le size) (by omega)

/-! ## A round that is made again -/

section

variable {views : Views} {cost : Nat} {S : Type} {f : S → UInt8 → S}
  (hs : ∀ t < b, views t = buf)
include hs

/-- A view that shows one buffer before a read is as good as this buffer. -/
theorem digitAt_quiet {τ1 : Nat} {r : Bool} (h : digitAt views τ i = (r, τ1)) (hb : τ1 ≤ b)
    (σ : Nat) : ∃ σ1, digitAt (fun _ => buf) σ i = (r, σ1) := by
  have hτ := digitAt_later views τ i
  rw [h] at hτ
  rw [digitAt, hs τ (by omega)] at h
  rw [digitAt]
  split at h
  · next hlow =>
      rw [if_pos hlow, (Prod.mk.inj h).1]
      exact ⟨_, rfl⟩
  next hlow =>
    obtain ⟨hr, rfl⟩ := Prod.mk.inj h
    rw [hs (τ + 1) (by omega)] at hr
    rw [if_neg hlow, hr]
    exact ⟨_, rfl⟩

theorem digitLoop_quiet (fuel : Nat) : ∀ {τ i τ1 i1 : Nat} {s s1 : S},
    digitLoop views cost f fuel τ i s = some (τ1, i1, s1) → τ1 ≤ b → ∀ σ,
      ∃ σ1, digitLoop (fun _ => buf) cost f fuel σ i s = some (σ1, i1, s1) := by
  induction fuel with
  | zero =>
    intro τ i τ1 i1 s s1 h
    cases h
  | succ fuel ih =>
    intro τ i τ1 i1 s s1 h hb σ
    rw [digitLoop] at h ⊢
    rcases hd : digitAt views τ i with ⟨_ | _, τ2⟩
    · rw [hd] at h
      obtain ⟨rfl, rfl, rfl⟩ := h
      obtain ⟨σ2, hσ⟩ := digitAt_quiet hs hd hb σ
      rw [hσ]
      exact ⟨_, rfl⟩
    rw [hd] at h
    have hτ2 := digitLoop_later h
    dsimp only at h hτ2
    obtain ⟨σ2, hσ⟩ := digitAt_quiet hs hd (by omega) σ
    rw [hs τ2 (by omega)] at h
    rw [hσ]
    exact ih h hb (σ2 + cost)

theorem kmsgCheck_quiet {τ' : Nat} {r : Bool} (h : kmsgCheck views fuel τ i offset = some (r, τ'))
    (hb : τ' ≤ b) (σ : Nat) : ∃ σ', kmsgCheck (fun _ => buf) fuel σ i offset = some (r, σ') := by
  have hτ := kmsgCheck_later h
  rw [kmsgCheck, skipDigits_eq]
  rcases kmsgCheck_cases h with ⟨htab, heq⟩ | ⟨htab, τ1, i1, hskip, h1, hrest⟩
  · rw [hs τ (by omega)] at htab
    rw [if_pos htab, (Prod.mk.inj heq).1]
    exact ⟨_, rfl⟩
  rw [hs τ (by omega)] at htab
  rw [if_neg (not_not.mpr htab)]
  rcases hrest with ⟨hcomma, heq⟩ | ⟨hcomma, τ2, i2, n, found, hread, h2, heq⟩
  · obtain ⟨rfl, rfl⟩ := Prod.mk.inj heq
    obtain ⟨σ1, hσ1⟩ := digitLoop_quiet hs fuel hskip (by omega) (σ + 1)
    rw [hs τ1 (by omega)] at hcomma
    simp only [hσ1, Option.map, if_pos hcomma]
    exact ⟨_, rfl⟩
  obtain ⟨rfl, rfl⟩ := Prod.mk.inj heq
  obtain ⟨σ1, hσ1⟩ := digitLoop_quiet hs fuel hskip (by omega) (σ + 1)
  obtain ⟨σ2, hσ2⟩ := digitLoop_quiet hs fuel hread (by omega) (σ1 + 1)
  rw [hs τ1 (by omega)] at hcomma
  simp only [hσ1, Option.map, if_neg (not_not.mpr hcomma), readCounter_eq, hσ2, hs τ2 (by omega)]
  split
  all_goals exact ⟨_, rfl⟩

end

theorem doneBy_storesDone (rs : List (List UInt8)) : ∀ {k : Nat}, k ≤ rs.length → ∀ w,
    (storesDone rs k ≤ w → k ≤ doneBy rs w) ∧
      (storesDone rs k < w → k < rs.length → k < doneBy rs w) := by
  induction rs with
  | nil =>
    intro k hk w
    exact ⟨fun _ => hk, fun _ h => absurd h (Nat.not_lt_zero k)⟩
  | cons r rs ih =>
    intro k hk w
    cases k with
    | zero =>
      refine ⟨fun _ => Nat.zero_le _, fun hw _ => ?_⟩
      rw [doneBy, if_neg (by omega)]
      omega
    | succ k =>
      have hstores : storesDone (r :: rs) (k + 1) =
          (messageStores r).length + storesDone rs k := by
        rw [storesDone, take_succ_cons, history, flatMap_cons, length_append]
        rfl
      have hpos : 0 < (messageStores r).length := by
        rw [messageStores, length_append, length_singleton]
        omega
      obtain ⟨hle, hlt⟩ := ih (Nat.le_of_succ_le_succ hk) (w - (messageStores r).length)
      refine ⟨fun hw => ?_, fun hw hk => ?_⟩
      · rw [doneBy, if_neg (by omega)]
        omega
      · have := hlt (by omega) (Nat.lt_of_succ_lt_succ hk)
        rw [doneBy, if_neg (by omega)]
        omega

theorem bufferAt_min (rs : List (List UInt8)) (w : Nat) :
    bufferAt rs (min w (history rs).length) = bufferAt rs w := by
  rw [bufferAt, bufferAt, ← take_eq_take_min]

theorem Settles.clock (hrs : Numbered rs) (hshort : ∀ r ∈ rs, r.length ≤ 261) (d : Nat → Nat)
    (w : Nat) :
    Settles (fun τ => bufferAt rs (clock d w τ))
      (fun τ => min (Kmsg.clock d w τ) (history rs).length) (history rs).length where
  mono h := by
    have := clock_mono d w h
    omega
  bound _ := min_le_right _ _
  same h := by
    rw [← bufferAt_min, h, bufferAt_min]
  stop _ := exists_not_digit hrs hshort _

/-- The digits and bytes that a read of any of these messages may take. -/
def readFuel (rs : List (List UInt8)) (size : Nat) : Nat :=
  ((history rs).length + 1) * kmsgSize + size + 1

/-- A search in a buffer that is not written meanwhile is not made again. -/
theorem not_retry_of_quiet {views : Views} {p : Nat}
    (hfind : kmsgFind views fuel 0 findI offset = some (some p, τ)) (hs : ∀ t ≤ τ, views t = buf) :
    kmsgRead buf fuel p offset size ≠ some .retry := by
  obtain ⟨-, τ1, hcheck⟩ := kmsgFindLoop_some fuel (startIndex_lt findI) hfind
  obtain ⟨σ, hcheck⟩ :=
    kmsgCheck_quiet (fun t ht => hs t (le_of_lt ht)) hcheck (le_refl τ) 0
  rw [kmsgRead, hcheck]
  have hloop : ∀ (fuel i : Nat) (bytes : List UInt8),
      kmsgReadLoop buf size fuel i bytes ≠ some .retry := by
    intro fuel
    induction fuel with
    | zero =>
      intro i bytes h
      cases h
    | succ fuel ih =>
      intro i bytes h
      rw [kmsgReadLoop] at h
      iterate 3
        split at h
        · cases h
      · exact ih _ _ h
  exact hloop _ _ _

section

variable (hrs : Numbered rs) (hshort : ∀ r ∈ rs, r.length ≤ 261)
include hrs hshort

theorem nReadLoop_ends (hfuel : readFuel rs size ≤ fuel) (ds : List (Nat → Nat)) :
    ∀ {k : Nat}, k ≤ rs.length →
      rs.length < k + ds.length →
        (nReadLoop rs fuel findI offset size ds (storesDone rs k)).isSome = true := by
  have hround : ((history rs).length + 1) * kmsgSize < fuel ∧ size < fuel := by
    rw [readFuel] at hfuel
    omega
  have hsize : kmsgSize ≤ ((history rs).length + 1) * kmsgSize :=
    Nat.le_mul_of_pos_left _ (Nat.succ_pos _)
  induction ds with
  | nil =>
    intro k hk hlt
    exact absurd hlt (not_lt.mpr hk)
  | cons d ds ih =>
    intro k hk hlt
    have hends : (kmsgFind (fun τ => bufferAt rs (clock d (storesDone rs k) τ)) fuel 0 findI
        offset).isSome = true :=
      kmsgFind_ends (Settles.clock hrs hshort d (storesDone rs k)) hround.1
    obtain ⟨⟨found, τ⟩, hfind⟩ := isSome_iff_exists.mp hends
    rw [nReadLoop, hfind]
    cases found with
    | none => rfl
    | some p =>
      dsimp only
      have hread : (kmsgRead
          (bufferAt rs (storesDone rs (doneBy rs (clock d (storesDone rs k) τ)))) fuel p offset
          size).isSome = true :=
        kmsgRead_ends (exists_not_digit hrs hshort _) (lt_of_le_of_lt hsize hround.1)
          hround.2
      obtain ⟨r, hread⟩ := isSome_iff_exists.mp hread
      rw [hread]
      cases r with
      | data bytes i | buffer | unexpected => rfl
      | retry =>
        have hwhole := doneBy_le rs (clock d (storesDone rs k) τ)
        -- The message was found in a buffer that has changed since.
        have hmore : k < doneBy rs (clock d (storesDone rs k) τ) := by
          by_contra hsame
          obtain ⟨hge, hgt⟩ := doneBy_storesDone rs hk (clock d (storesDone rs k) τ)
          have hstart : ∀ t, storesDone rs k ≤ clock d (storesDone rs k) t := clock_le d _
          have hk' : doneBy rs (clock d (storesDone rs k) τ) = k := by
            have := hge (hstart τ)
            omega
          rw [hk'] at hread
          refine not_retry_of_quiet hfind (fun t ht => ?_) hread
          by_cases hlast : k < rs.length
          · have hmono := clock_mono d (storesDone rs k) ht
            have := hstart t
            have heq : clock d (storesDone rs k) t = storesDone rs k := by
              by_contra hne
              omega
            rw [heq]
          · have hall : storesDone rs k = (history rs).length := by
              rw [storesDone, take_of_length_le (by omega)]
            have := hstart t
            rw [← bufferAt_min, min_eq_right (by omega), hall]
        rw [length_cons] at hlt
        exact ih hwhole (by omega)

theorem nRead_ends {w : Nat} {ds : List (Nat → Nat)} (hfuel : readFuel rs size ≤ fuel)
    (hds : rs.length < ds.length) : (nRead rs fuel findI offset size ds w).isSome = true := by
  rw [nRead]
  split
  · rfl
  · exact nReadLoop_ends hrs hshort hfuel ds (doneBy_le rs w) (by omega)

theorem follow_ends (cs : List Call)
    (hcs : ∀ c ∈ cs, readFuel rs c.size ≤ c.fuel ∧ rs.length < c.ds.length) : ∀ n w,
      (follow rs cs n w).isSome = true := by
  induction cs with
  | nil => exact fun _ _ => rfl
  | cons c cs ih =>
    intro n w
    obtain ⟨hfuel, hds⟩ := hcs c mem_cons_self
    have hrest := ih fun c' hc' => hcs c' (.tail c hc')
    have hread : (nRead rs c.fuel c.findI n c.size c.ds (w + c.wait)).isSome = true :=
      nRead_ends hrs hshort hfuel hds
    obtain ⟨⟨r, w1, i⟩, hread⟩ := isSome_iff_exists.mp hread
    rw [follow, hread]
    cases r with
    | message bytes =>
      obtain ⟨⟨seen, last⟩, hlast⟩ := isSome_iff_exists.mp (hrest (n + 1) w1)
      simp only [hlast]
      rfl
    | placeholder => exact hrest (n + 1) w1
    | notWritten | buffer | unexpected => exact hrest n w1

end

theorem foldl_kmsgWriteLocked_boot (ms : List Message) :
    (ms.foldl kmsgWriteLocked .boot).buffer = bufferAt (records 0 ms) (history (records 0 ms)).length ∧
      (ms.foldl kmsgWriteLocked .boot).counter = (records 0 ms).length := by
  rw [foldl_kmsgWriteLocked]
  exact ⟨by rw [bufferAt, take_length]; rfl, zero_add _⟩

/-- Every read of a message while messages are written ends; it gives this
message, or says that there is no room for it, or that it is not written yet
or is overwritten. Who follows the numbers sees each message that is still
there once and in order. -/
theorem kmsg_reads (ms : List Message) :
    (ms.foldl kmsgWriteLocked .boot).buffer =
        bufferAt (records 0 ms) (history (records 0 ms)).length ∧
      (∀ fuel findI offset size ds w, readFuel (records 0 ms) size ≤ fuel →
        (records 0 ms).length < ds.length →
          ∃ r w' i', nRead (records 0 ms) fuel findI offset size ds w = some (r, w', i') ∧
            Answers (records 0 ms) offset size w' r) ∧
      ∀ cs n w, (∀ c ∈ cs, readFuel (records 0 ms) c.size ≤ c.fuel ∧
          (records 0 ms).length < c.ds.length) →
        ∃ seen n' w', follow (records 0 ms) cs n w = some (seen, n', w') ∧
          Seen (records 0 ms) n n' w' seen := by
  have hrs := numbered_records ms
  have hshort := length_records ms 0
  refine ⟨(foldl_kmsgWriteLocked_boot ms).1, ?_, ?_⟩
  · intro fuel findI offset size ds w hfuel hds
    have hends : (nRead (records 0 ms) fuel findI offset size ds w).isSome = true :=
      nRead_ends hrs hshort hfuel hds
    obtain ⟨⟨r, w', i'⟩, hread⟩ := isSome_iff_exists.mp hends
    exact ⟨r, w', i', hread, nRead_answers hrs hread⟩
  · intro cs n w hcs
    obtain ⟨⟨seen, n', w'⟩, hseen⟩ := isSome_iff_exists.mp (follow_ends hrs hshort cs hcs n w)
    exact ⟨seen, n', w', hseen, follow_seen hrs cs hseen⟩

/-- A read of the only message, while nothing is written. -/
theorem kmsg_reads_one :
    ∃ r w' i', nRead (records 0 [⟨[97], 0⟩]) (readFuel (records 0 [⟨[97], 0⟩]) 20) 0 0 20
        [fun _ => 0, fun _ => 0] 12 = some (r, w', i') ∧
      Answers (records 0 [⟨[97], 0⟩]) 0 20 w' r :=
  (kmsg_reads [⟨[97], 0⟩]).2.1 _ 0 0 20 [fun _ => 0, fun _ => 0] 12 le_rfl (by decide)

/-- A message that is there is not read, because there is no room for it. -/
theorem nRead_buffer : nRead (records 0 [⟨[97], 0⟩]) 20 0 0 0 [fun _ => 0] 12 =
      some (.buffer, 12, 0) ∧ Retained (records 0 [⟨[97], 0⟩]) 0 12 ∧
    ¬ ∀ (ms : List Message) (fuel findI offset size : Nat) (ds : List (Nat → Nat))
        (w w' i' : Nat) (r : ReadResult),
      nRead (records 0 ms) fuel findI offset size ds w = some (r, w', i') →
        (∃ h : offset < (records 0 ms).length, r = .message (records 0 ms)[offset].tail) ∨
          r = .notWritten ∨ r = .placeholder := by
  have hread : nRead (records 0 [⟨[97], 0⟩]) 20 0 0 0 [fun _ => 0] 12 =
      some (.buffer, 12, 0) := by decide +kernel
  refine ⟨hread, ?_, fun hall => ?_⟩
  · rw [Retained]
    decide +kernel
  rcases hall [⟨[97], 0⟩] 20 0 0 0 [fun _ => 0] 12 12 0 .buffer hread with
    ⟨_, h⟩ | h | h
  · cases h
  · cases h
  · cases h

end Dancy.Kmsg
