import Dancy.Tasks.Wait

/-!
# Waiting for one child

A wait for one identification ends when it has detached that child, or when
a scan has found the child running and a signal is pending. The steps of a
call that meet `Calm` are the ones of a call that is not interrupted.
-/

namespace Dancy.Tasks

open Dancy.Lib List Option

variable {s s' : WaitSys} {tasks tasks' : List Kin} {id c : Nat}

/-- `task_wait_descendant(&id, 0, NULL)`. -/
def waitFor (id : Nat) : Wait := ⟨id, 0, false⟩

def InCall (s : WaitSys) (_ : WaitEvent) : Prop := s.pc ≠ .idle

/-- `task_signaled(current)`, after a scan that found the child running. -/
def Interrupting (s : WaitSys) (e : WaitEvent) : Prop :=
  ∃ w out, s.pc = .decide w true out ∧ w.modeTrywait = false ∧ out.id = 0 ∧ e = .parent true

/-- A step of the call that does not interrupt it. -/
def Calm (s : WaitSys) (e : WaitEvent) : Prop := InCall s e ∧ ¬ Interrupting s e

/-- The child at position `c`, the only one with its identification. -/
structure ChildAt (tasks : List Kin) (id c : Nat) (detached : Bool) : Prop where
  id_ne : id ≠ 0
  child : ∃ t, tasks[c]? = some t ∧ t.own = true ∧ t.id = id ∧ t.detached = detached
  only : ∀ i t, tasks[i]? = some t → t.own = true → t.id = id → i = c

def ReapPhase (tasks : List Kin) (id c : Nat) : ParentPc → Prop
  | .idle => ChildAt tasks id c true
  | .sample w => w = waitFor id ∧ ChildAt tasks id c false
  | .store w _ => w = waitFor id ∧ ChildAt tasks id c false
  | .test w i ds => w = waitFor id ∧ ChildAt tasks id c false ∧ (c < i → ds = true)
  | .check w i ds => w = waitFor id ∧ ChildAt tasks id c false ∧ (c < i → ds = true)
  | .readStopped w i ds valid => w = waitFor id ∧ ChildAt tasks id c false ∧
      (c < i → ds = true) ∧ (valid = true ↔ i = c)
  | .tryDetach w i _ => w = waitFor id ∧ ChildAt tasks id c false ∧ i = c
  | .readId w i => w = waitFor id ∧ ChildAt tasks id c true ∧ i = c
  | .readRetval w _ _ id' => w = waitFor id ∧ ChildAt tasks id c true ∧ id' = id
  | .next w i ds out => w = waitFor id ∧
      (out.id = 0 → ChildAt tasks id c false ∧ (c ≤ i → ds = true)) ∧
      (out.id ≠ 0 → ChildAt tasks id c true)
  | .decide w ds out => w = waitFor id ∧ (out.id = 0 → ChildAt tasks id c false ∧ ds = true) ∧
      (out.id ≠ 0 → ChildAt tasks id c true)
  | .blocked w => w = waitFor id ∧ ChildAt tasks id c false

theorem ReapPhase.mono {pc : ParentPc} (h : ReapPhase tasks id c pc)
    (hchild : ∀ b, ChildAt tasks id c b → ChildAt tasks' id c b) : ReapPhase tasks' id c pc := by
  cases pc with
  | idle => exact hchild _ h
  | sample w | store w v => exact ⟨h.1, hchild _ h.2⟩
  | test w i ds => exact ⟨h.1, hchild _ h.2.1, h.2.2⟩
  | check w i ds => exact ⟨h.1, hchild _ h.2.1, h.2.2⟩
  | readStopped w i ds valid => exact ⟨h.1, hchild _ h.2.1, h.2.2⟩
  | tryDetach w i ds => exact ⟨h.1, hchild _ h.2.1, h.2.2⟩
  | readId w i => exact ⟨h.1, hchild _ h.2.1, h.2.2⟩
  | readRetval w i serial id' => exact ⟨h.1, hchild _ h.2.1, h.2.2⟩
  | next w i ds out | decide w ds out =>
    exact ⟨h.1, fun h0 => ⟨hchild _ (h.2.1 h0).1, (h.2.1 h0).2⟩, fun h0 => hchild _ (h.2.2 h0)⟩
  | blocked w => exact ⟨h.1, hchild _ h.2⟩

variable {b : Bool} {t : Kin} {es : List WaitEvent}

section

variable (h : ChildAt tasks id c b)
include h

theorem ChildAt.set {i : Nat} {t' : Kin} (hi : tasks[i]? = some t) (hown : t'.own = t.own)
    (hid : t'.id = t.id) (hdet : t'.detached = t.detached) : ChildAt (tasks.set i t') id c b := by
  refine ⟨h.id_ne, ?_, fun j u hu huo hui => ?_⟩
  · obtain ⟨u, hu, hrest⟩ := h.child
    by_cases hic : i = c
    · subst hic
      obtain rfl : t = u := some.inj (hi.symm.trans hu)
      refine ⟨t', getElem?_set_of hi, ?_⟩
      rwa [hown, hid, hdet]
    · exact ⟨u, by rw [getElem?_set_ne hic]; exact hu, hrest⟩
  · rcases getElem?_set_cases hu with ⟨rfl, rfl⟩ | ⟨-, hold⟩
    · exact h.only j t hi (hown ▸ huo) (hid ▸ hui)
    · exact h.only j u hold huo hui

theorem ChildAt.append (hown : t.own = false) : ChildAt (tasks ++ [t]) id c b := by
  obtain ⟨u, hu, hrest⟩ := h.child
  obtain ⟨hc, -⟩ := List.getElem?_eq_some_iff.mp hu
  refine ⟨h.id_ne, ⟨u, by rw [getElem?_append_left hc]; exact hu, hrest⟩,
    fun j v hv hvo hvi => ?_⟩
  rcases lt_or_ge j tasks.length with hlt | hge
  · rw [getElem?_append_left hlt] at hv
    exact h.only j v hv hvo hvi
  rw [getElem?_append_right hge, getElem?_singleton] at hv
  split at hv
  · rw [← some.inj hv, hown] at hvo
    cases hvo
  · cases hv

theorem ChildAt.detach (ht : tasks[c]? = some t) :
    ChildAt (tasks.set c { t with detached := true }) id c true := by
  obtain ⟨u, hu, hown, hid, -⟩ := h.child
  obtain rfl : t = u := some.inj (ht.symm.trans hu)
  refine ⟨h.id_ne, ⟨_, getElem?_set_of ht, hown, hid, rfl⟩, fun j v hv hvo hvi => ?_⟩
  rcases getElem?_set_cases hv with ⟨hj, -⟩ | ⟨-, hold⟩
  · exact hj
  · exact h.only j v hold hvo hvi

theorem ChildAt.valid_iff {i : Nat} (hi : tasks[i]? = some t) :
    validCandidate (waitFor id) t = true ↔ i = c := by
  have hvalid : validCandidate (waitFor id) t = true ↔ t.own = true ∧ t.id = id := by
    have hne := h.id_ne
    unfold validCandidate waitFor
    by_cases hid : id = t.id
    · simp [hid]
    · simp [hne, hid, Ne.symm hid]
  rw [hvalid]
  constructor
  · rintro ⟨hown, hid⟩
    exact h.only i t hi hown hid
  · rintro rfl
    obtain ⟨u, hu, hown, hid, -⟩ := h.child
    obtain rfl : t = u := some.inj (hi.symm.trans hu)
    exact ⟨hown, hid⟩

end

theorem ReapPhase.parent {env : Bool} (h : ReapPhase s.tasks id c s.pc)
    (hcalm : Calm s (.parent env)) :
    ReapPhase (parentStep s env).tasks id c (parentStep s env).pc := by
  have hstuck := h
  unfold parentStep
  split <;> rename_i hpc <;> rw [hpc] at h
  · omega
  · exact h
  · exact ⟨h.1, h.2, fun hlt => absurd hlt (Nat.not_lt_zero c)⟩
  · split
    · exact hstuck
    rename_i t ht
    split
    · exact h
    rename_i hown
    refine ⟨h.1, fun _ => ⟨h.2.1, fun hle => ?_⟩, fun h0 => absurd rfl h0⟩
    rcases Nat.lt_or_eq_of_le hle with hlt | rfl
    · exact h.2.2 hlt
    · obtain ⟨u, hu, huo, -⟩ := h.2.1.child
      obtain rfl : t = u := some.inj (ht.symm.trans hu)
      exact absurd huo hown
  · split
    · exact hstuck
    · rename_i t ht
      obtain ⟨rfl, hchild, hds⟩ := h
      exact ⟨rfl, hchild, hds, hchild.valid_iff ht⟩
  · split
    · exact hstuck
    obtain ⟨rfl, hchild, hds, hvalid⟩ := h
    split
    · rename_i hboth
      exact ⟨rfl, hchild, hvalid.mp (Bool.and_eq_true_iff.mp hboth).1⟩
    refine ⟨rfl, fun _ => ⟨hchild, fun hle => ?_⟩, fun h0 => absurd rfl h0⟩
    rcases Nat.lt_or_eq_of_le hle with hlt | heq
    · rw [hds hlt]
      rfl
    · rw [hvalid.mpr heq.symm, Bool.or_true]
  · obtain ⟨rfl, hchild, rfl⟩ := h
    split
    · exact hstuck
    rename_i t ht
    obtain ⟨u, hu, hown, hid, hdet⟩ := hchild.child
    obtain rfl : t = u := some.inj (ht.symm.trans hu)
    rw [if_neg (by rw [hdet]; simp)]
    exact ⟨rfl, hchild.detach ht, rfl⟩
  · obtain ⟨rfl, hchild, rfl⟩ := h
    split
    · exact hstuck
    · rename_i t ht
      obtain ⟨u, hu, hown, hid, -⟩ := hchild.child
      obtain rfl : t = u := some.inj (ht.symm.trans hu)
      exact ⟨rfl, hchild, hid⟩
  · obtain ⟨rfl, hchild, rfl⟩ := h
    split
    · exact hstuck
    · exact ⟨rfl, fun h0 => absurd h0 hchild.id_ne, fun _ => hchild⟩
  · obtain ⟨rfl, hrunning, hfound⟩ := h
    split
    · rename_i hmore
      obtain ⟨hchild, hds⟩ := hrunning hmore.1
      exact ⟨rfl, hchild, fun hlt => hds (Nat.lt_succ_iff.mp hlt)⟩
    rename_i hlast
    refine ⟨rfl, fun h0 => ?_, hfound⟩
    obtain ⟨hchild, hds⟩ := hrunning h0
    obtain ⟨u, hu, -⟩ := hchild.child
    obtain ⟨hc, -⟩ := List.getElem?_eq_some_iff.mp hu
    exact ⟨hchild, hds (by by_contra hlt; omega)⟩
  · rename_i w ds out
    obtain ⟨rfl, hrunning, hfound⟩ := h
    split
    · rename_i h0
      exact hfound h0
    rename_i h0
    rw [Decidable.not_not] at h0
    obtain ⟨hchild, rfl⟩ := hrunning h0
    rw [if_neg (by simp [waitFor])]
    split
    · rename_i henv
      exact absurd ⟨_, out, hpc, rfl, h0, by rw [henv]⟩ hcalm.2
    · exact ⟨rfl, hchild⟩
  · split
    · exact h
    · exact hstuck

theorem ReapPhase.step {e : WaitEvent} (h : ReapPhase s.tasks id c s.pc) (hcalm : Calm s e)
    (hstep : WaitStep s e s') : ReapPhase s'.tasks id c s'.pc := by
  cases hstep with
  | create id' idGroup own detached _ _ hidle =>
    refine h.mono fun b hb => hb.append ?_
    cases own with
    | false => rfl
    | true => exact absurd (hidle rfl) hcalm.1
  | collect i t hpc | call w hpc => exact absurd hpc hcalm.1
  | parent env => exact h.parent hcalm
  | publish i t retval hi _ | stop i t retval hi _ _ =>
    exact h.mono fun b hb => hb.set hi rfl rfl rfl
  | count i t retval hi _ =>
    have hpc : (Dancy.Tasks.count s i t retval).pc = s.pc := by
      unfold Dancy.Tasks.count
      split <;> rfl
    rw [hpc]
    refine h.mono fun b hb => ?_
    unfold Dancy.Tasks.count
    split <;> exact hb.set hi rfl rfl rfl

theorem Interrupting.returns {e : WaitEvent} (h : Interrupting s e) (hstep : WaitStep s e s') :
    s'.pc = .idle ∧ s'.tasks = s.tasks := by
  obtain ⟨w, out, hpc, htry, h0, rfl⟩ := h
  cases hstep
  simp [parentStep, hpc, htry, h0]

theorem calm_of_inCall (hrun : Run (Guarded InCall WaitStep) s es s') (hpc : s'.pc ≠ .idle) :
    Run (Guarded Calm WaitStep) s es s' := by
  induction hrun with
  | nil => exact .nil _
  | snoc _ hstep ih =>
    refine .snoc (ih hstep.1) ⟨⟨hstep.1, fun hint => hpc ?_⟩, hstep.2⟩
    exact (hint.returns hstep.2).1

theorem ChildAt.detached_iff (h : ChildAt tasks id c b) :
    (∀ t ∈ tasks, t.own = true → t.id = id → t.detached = true) ↔ b = true := by
  obtain ⟨u, hu, hown, hid, rfl⟩ := h.child
  constructor
  · intro hall
    exact hall u (mem_of_getElem? hu) hown hid
  intro hdet t ht hto hti
  obtain ⟨i, hi⟩ := mem_iff_getElem?.mp ht
  obtain rfl := h.only i t hi hto hti
  obtain rfl : t = u := some.inj (hi.symm.trans hu)
  exact hdet

/-- **The wait for one child**: when the call has returned, the child has
been detached if and only if no step of the call interrupted it. -/
theorem detached_iff_calm (hstart : s.pc = .sample (waitFor id))
    (hchild : ChildAt s.tasks id c false) (hrun : Run (Guarded InCall WaitStep) s es s')
    (hidle : s'.pc = .idle) :
    (∀ t ∈ s'.tasks, t.own = true → t.id = id → t.detached = true) ↔
      Run (Guarded Calm WaitStep) s es s' := by
  have hphase : ∀ {es s'}, Run (Guarded Calm WaitStep) s es s' →
      ReapPhase s'.tasks id c s'.pc := fun hcalm =>
    hcalm.invariant (I := fun s => ReapPhase s.tasks id c s.pc)
      (fun _ _ _ h hs => h.step hs.1 hs.2) (by rw [hstart]; exact ⟨rfl, hchild⟩)
  constructor
  · intro hdone
    cases hrun with
    | nil =>
      rw [hstart] at hidle
      cases hidle
    | snoc hrun hstep =>
      have hcalm := calm_of_inCall hrun hstep.1
      refine hcalm.snoc ⟨⟨hstep.1, fun hint => ?_⟩, hstep.2⟩
      have hlast := hphase hcalm
      rw [(hint.returns hstep.2).2] at hdone
      obtain ⟨w, out, hpc, -, h0, -⟩ := hint
      rw [hpc] at hlast
      cases (hlast.2.1 h0).1.detached_iff.mp hdone
  · intro hcalm
    have hdone := hphase hcalm
    rw [hidle] at hdone
    exact hdone.detached_iff.mpr rfl

theorem calm_parents (s : WaitSys) (n : Nat)
    (h : ∀ k < n, ((parentStep · false)^[k] s).pc ≠ .idle) :
    Run (Guarded Calm WaitStep) s (replicate n (.parent false))
      ((parentStep · false)^[n] s) := by
  induction n with
  | zero => exact .nil s
  | succ n ih =>
    rw [replicate_succ', Function.iterate_succ_apply']
    refine .snoc (ih fun k hk => h k (Nat.lt_succ_of_lt hk)) ⟨⟨h n (Nat.lt_succ_self n), ?_⟩,
      .parent _ false⟩
    rintro ⟨w, out, -, -, -, hevent⟩
    cases hevent

theorem Calm.inCall (hrun : Run (Guarded Calm WaitStep) s es s') :
    Run (Guarded InCall WaitStep) s es s' :=
  hrun.mono fun _ _ _ hs => ⟨hs.1.1, hs.2⟩

end Dancy.Tasks
