import Dancy.Tasks.Lists

/-!
# The task list and the pool over whole runs

One lemma for each kind of step, then the run theorem: in every
interleaving the list holds every live task once, the pool is a separate
list, and a pooled structure is handed out again only after it has come
back.
-/

namespace Dancy.Tasks

open Dancy.Lib Option Function
open List hiding chain_cons

variable {s s' : TaskSys} {l p : List TaskRef} {r : TaskRef}

/-! ## Creating and joining -/

theorem perm_to_list (a b c d : List TaskRef) :
    (a ++ (b ++ (c ++ r :: d))).Perm (a ++ [r] ++ (b ++ (c ++ d))) := by
  rw [perm_iff_count]
  simp only [count_append, count_cons, count_nil]
  omega

theorem TaskInv.create (h : TaskInv s l p) {t : Task} (hr : r ∉ s.used)
    (ht : t.active = true) :
    TaskInv
      { s with
        mem := s.mem.modify r fun _ => t
        created := r :: s.created
        used := r :: s.used } l p := by
  have hnew : ∀ x ∈ l ++ (p ++ (flight s.care ++ s.created)), x ≠ r :=
    fun x hx heq => hr (heq ▸ h.known x hx)
  have hl : ∀ x ∈ l, x ≠ r := fun x hx => hnew x (mem_append_left _ hx)
  have hnext : ∀ x, x ≠ r → (s.mem.modify r fun _ => t).next x = s.mem.next x := by
    intro x hx
    rw [TaskMem.next, task_modify_of_ne hx]
    rfl
  have hperm : (l ++ (p ++ (flight s.care ++ r :: s.created))).Perm
      (r :: (l ++ (p ++ (flight s.care ++ s.created)))) := by
    rw [perm_iff_count]
    simp only [count_append, count_cons]
    omega
  refine ⟨h.ring.congr fun x hx => hnext x (hl x hx),
    h.pool.congr fun x hx => hnext x (hnew x (by simp [hx])), h.count, ?_, ?_, h.live,
    h.refs, ?_, ?_⟩
  · rw [hperm.nodup_iff, nodup_cons]
    exact ⟨fun hin => hnew r hin rfl, h.apart⟩
  · intro x hx
    rcases mem_cons.mp (hperm.mem_iff.mp hx) with rfl | hx
    · simp
    · exact .tail _ (h.known x hx)
  · intro x hx
    by_cases hxr : x = r
    · rwa [hxr, task_modify_self]
    · rw [task_modify_of_ne hxr]
      exact h.held x hx
  · intro x hx
    by_cases hxr : x = r
    · rw [hxr, task_modify_self]
      exact ht
    · rw [task_modify_of_ne hxr]
      refine h.parked x ?_
      simp only [mem_append, mem_cons] at hx ⊢
      tauto

variable {created used live p' : List TaskRef} {mem : TaskMem} {current t1 : TaskRef}
  {e : TaskEvent}

theorem TaskInv.join {care : CarePc} {mem' : TaskMem}
    (h : TaskInv ⟨mem, care, created, used, live⟩ l p) (hr : r ∉ l) {created' : List TaskRef}
    (hnext : mem'.next = update (update mem.next r (some mem.taskHead)) mem.taskTail (some r))
    (hhead : mem'.taskHead = mem.taskHead) (htail : mem'.taskTail = r)
    (hpool : Chain mem.next mem'.taskPoolHead p' none) (hsub : ∀ x ∈ p', x ∈ p ∧ x ≠ r)
    (hcount : mem'.taskPoolCount = p'.length)
    (hperm : (l ++ (p ++ (flight care ++ created))).Perm (l ++ [r] ++ (p' ++ (flight care ++ created'))))
    (hactive : ∀ x, (mem'.task x).active = (mem.task x).active) :
    TaskInv ⟨mem', care, created', used, r :: live⟩ (l ++ [r]) p' where
  ring := by
    rw [hnext, hhead, htail]
    exact h.ring.append hr
  pool := by
    rw [hnext]
    have htl := h.ring.tail_mem
    refine (hpool.update (fun hin => (hsub r hin).2 rfl) _).update (fun hin => ?_) _
    exact h.not_listed (mem_append_left _ (hsub _ hin).1) htl
  count := hcount
  apart := hperm.nodup_iff.mp h.apart
  known := fun x hx => h.known x (hperm.mem_iff.mpr hx)
  live := by
    have hsnoc : (l ++ [r]).Perm (r :: l) := perm_append_singleton r l
    exact (h.live.cons r).trans hsnoc.symm
  refs := fun x hx => mem_append_left _ (h.refs x hx)
  held := fun x hx => (hactive x).trans (h.held x hx)
  parked := fun x hx => by
    have hin := hperm.mem_iff.mpr (mem_append_right _ hx)
    have hnodup := hperm.nodup_iff.mp h.apart
    rw [nodup_append] at hnodup
    rcases mem_append.mp hin with hl | hin
    · exact absurd rfl (hnodup.2.2 x (mem_append_left _ hl) x hx)
    · exact (hactive x).trans (h.parked x hin)

theorem TaskInv.append (h : TaskInv s l p) (hr : r ∈ s.created) :
    ∃ l', TaskInv
      { s with
        mem := (taskAppend s.mem r).2
        created := s.created.erase r
        live := (taskAppend s.mem r).1.toList ++ s.live } l' p := by
  have hrl : r ∉ l := h.not_listed (by simp [hr])
  have hperm : (l ++ (p ++ (flight s.care ++ s.created))).Perm
      (l ++ [r] ++ (p ++ (flight s.care ++ s.created.erase r))) := by
    refine List.Perm.trans ?_ (perm_to_list l p (flight s.care) (s.created.erase r))
    exact (((perm_cons_erase hr).append_left _).append_left _).append_left _
  have hrp : r ∉ p ++ (flight s.care ++ s.created.erase r) := by
    intro hin
    have hnodup := hperm.nodup_iff.mp h.apart
    rw [nodup_append] at hnodup
    exact hnodup.2.2 r (by simp) r hin rfl
  have hrp' : r ∉ p := fun hin => hrp (mem_append_left _ hin)
  cases hboot : s.mem.rebooting with
  | true =>
    -- the structure is lost: it links to the list, which does not link to it
    refine ⟨l, ?_⟩
    simp only [taskAppend, TaskMem.writeNext, TaskMem.modify, hboot]
    have hnext := next_writeNext (s := s.mem) (r := r) (some s.mem.taskHead)
    have hactive := active_writeNext (s := s.mem) (r := r) (some s.mem.taskHead)
    have hmem : ∀ x ∈ p ++ (flight s.care ++ s.created.erase r),
        x ∈ p ++ (flight s.care ++ s.created) := by
      intro x hx
      simp only [mem_append] at hx ⊢
      have := @mem_of_mem_erase _ _ x r s.created
      tauto
    have hsub : List.Sublist (l ++ (p ++ (flight s.care ++ s.created.erase r)))
        (l ++ (p ++ (flight s.care ++ s.created))) :=
      ((erase_sublist.append_left _).append_left _).append_left _
    refine ⟨?_, ?_, h.count, h.apart.sublist hsub, fun x hx => h.known x (hsub.subset hx),
      h.live, h.refs, fun x hx => ?_, fun x hx => ?_⟩
    · refine h.ring.congr fun x hx => ?_
      refine (congrFun hnext x).trans (Function.update_of_ne ?_ _ _)
      exact fun heq => hrl (heq ▸ hx)
    · refine h.pool.congr fun x hx => ?_
      refine (congrFun hnext x).trans (Function.update_of_ne ?_ _ _)
      exact fun heq => hrp' (heq ▸ hx)
    · exact (hactive x).trans (h.held x hx)
    · exact (hactive x).trans (h.parked x (hmem x hx))
  | false =>
    refine ⟨l ++ [r], ?_⟩
    have hdef : taskAppend s.mem r = (some r,
        { (s.mem.writeNext r (some s.mem.taskHead)).writeNext s.mem.taskTail (some r) with
          taskTail := r }) := by
      rw [taskAppend]
      simp only [TaskMem.writeNext, TaskMem.modify, hboot, Bool.not_false, if_true]
    rw [hdef]
    refine h.join hrl ?_ rfl rfl h.pool
      (fun x hx => ⟨hx, fun heq => hrp' (heq ▸ hx)⟩) h.count hperm fun x => ?_
    · change ((s.mem.writeNext r _).writeNext s.mem.taskTail (some r)).next = _
      simp
    · simp

/-- What `task_create_from_pool` hands out, when it hands out anything:
the first structure of the pool. -/
theorem taskCreateFromPool_some {m : TaskMem}
    (hm : taskCreateFromPool m current = some (some r, mem)) :
    m.taskPoolHead = some r ∧ m.rebooting = false ∧ mem.next = update
        (update m.next r (some m.taskHead)) m.taskTail (some r) ∧
      mem.taskHead = m.taskHead ∧ mem.taskTail = r ∧
      mem.taskPoolHead = m.next r ∧ mem.taskPoolCount = m.taskPoolCount - 1 ∧
      ∀ x, (mem.task x).active = (m.task x).active := by
  unfold taskCreateFromPool at hm
  split at hm
  · cases hm
  rename_i newTask hhead
  split at hm
  · cases hm
  rename_i hboot
  simp only at hm
  split at hm
  · cases hm
  split at hm
  · cases hm
  rename_i id s' hid
  simp only [some.injEq, Prod.mk.injEq] at hm
  obtain ⟨rfl, rfl⟩ := hm
  simp only [taskCreateId] at hid
  split at hid
  · cases hid
  obtain ⟨-, rfl⟩ := hid
  refine ⟨hhead, by simpa using hboot, ?_, rfl, rfl, rfl, rfl, fun x => ?_⟩
  · rw [next_modify rfl]
    exact (next_writeNext _).trans
      (by rw [next_writeNext _]; rfl)
  · rw [active_modify rfl]
    simp

theorem taskCreateFromPool_none {m : TaskMem}
    (hm : taskCreateFromPool m current = some (none, mem)) : mem = m := by
  unfold taskCreateFromPool at hm
  split at hm
  · cases hm
    rfl
  split at hm
  · cases hm
    rfl
  simp only at hm
  split at hm
  · cases hm
  · split at hm
    · cases hm
    · cases hm

theorem TaskInv.fromPool (h : TaskInv s l p) {o : Option TaskRef}
    (hm : taskCreateFromPool s.mem current = some (o, mem)) :
    ∃ l' p', TaskInv { s with mem := mem, live := o.toList ++ s.live } l' p' ∧
      ∀ r, o = some r → p = r :: p' := by
  cases o with
  | none =>
    rw [taskCreateFromPool_none hm]
    exact ⟨l, p, h, by simp⟩
  | some r =>
    obtain ⟨hhead, -, hnext, h1, h2, h3, h4, hactive⟩ := taskCreateFromPool_some hm
    have hpool := h.pool
    have hcount := h.count
    cases p with
    | nil =>
      rw [chain_nil, hhead] at hpool
      cases hpool
    | cons r' p' =>
      rw [chain_cons, hhead, some.injEq] at hpool
      obtain ⟨rfl, hpool⟩ := hpool
      have hnodup := h.apart
      have hrl : r ∉ l := h.not_listed (by simp)
      have hrp : r ∉ p' := by
        rw [nodup_append, nodup_append, nodup_cons] at hnodup
        exact hnodup.2.1.1.1
      have hperm : (l ++ (r :: p' ++ (flight s.care ++ s.created))).Perm
          (l ++ [r] ++ (p' ++ (flight s.care ++ s.created))) := by
        rw [perm_iff_count]
        simp only [count_append, count_cons, count_nil]
        omega
      refine ⟨l ++ [r], p', h.join hrl hnext h1 h2 ?_
        (fun x hx => ⟨mem_cons_of_mem _ hx, fun heq => hrp (heq ▸ hx)⟩) ?_ hperm hactive,
        fun x hx => by rw [some.inj hx]⟩
      · rwa [h3]
      · rw [h4, hcount, length_cons]
        omega

theorem TaskInv.touch (h : TaskInv s l p) {t : Task} (hr : r ∈ s.live)
    (hnext : t.next = s.mem.next r)
    (hheld : heldTask s.care = some r → t.active = (s.mem.task r).active) :
    TaskInv { s with mem := s.mem.modify r fun _ => t } l p := by
  have hl : r ∈ l := h.live.mem_iff.mp hr
  refine h.keep (next_modify hnext) rfl rfl rfl rfl (fun x hx => ?_) rfl h.refs fun x hx => ?_
  · have hne : x ≠ r := fun heq => hx (heq ▸ hl)
    rw [task_modify_of_ne hne]
  by_cases hxr : x = r
  · subst hxr
    rw [task_modify_self, hheld hx]
    exact h.held x hx
  · rw [task_modify_of_ne hxr]
    exact h.held x hx

theorem TaskInv.release (h : TaskInv s l p) {t : Option TaskRef} (h1 : t1 ∈ l)
    (ht : ∀ x ∈ t.toList, x ∈ l) (hflight : flight s.care = []) :
    TaskInv { s with mem := unlockActive s.mem t1, care := careLoop t } l p := by
  refine h.keep (next_modify rfl) rfl rfl rfl rfl (fun x hx => ?_) (by simp [hflight])
    (by simpa using ht) (by simp)
  have hne : x ≠ t1 := fun heq => hx (heq ▸ h1)
  rw [unlockActive, task_modify_of_ne hne]

theorem TaskInv.unlink {t0 t2 : TaskRef} {t : Option TaskRef}
    (h : TaskInv ⟨mem, .unlink t0 t1 t (some t2), created, used, live⟩ l p)
    (hcheck : errorAssumption mem t0 t1 (some t2) = false) :
    ∃ l', TaskInv ⟨unlinkTask mem t0 t1 t2, .wipe t1 t2, created, used, live.erase t1⟩ l' p := by
  simp only [errorAssumption, Bool.or_eq_false_iff, beq_eq_false_iff_ne, bne_eq_false_iff_eq]
    at hcheck
  obtain ⟨⟨⟨h1head, h01⟩, h12⟩, ⟨⟨-, h02⟩, -⟩, -⟩ := hcheck
  have hne : t0 ≠ t2 := fun heq => h02 (by rw [heq])
  have h0 : t0 ∈ l := h.refs t0 (by simp [careRefs])
  obtain ⟨l₁, l₂, rfl⟩ := h.ring.split_checked h0 h01 h1head
  obtain ⟨hring, hmem2⟩ := h.ring.unlink h12 hne
  have hapart := h.apart
  have hparked := h.parked
  have hperm : (l₁ ++ t0 :: t1 :: l₂ ++ (p ++ created)).Perm
      (l₁ ++ t0 :: l₂ ++ (p ++ ([t1] ++ created))) := by
    rw [perm_iff_count]
    simp only [count_append, count_cons, count_nil]
    omega
  have h0p : t0 ∉ p := by
    intro hin
    rw [nodup_append] at hapart
    exact hapart.2.2 t0 (by simp) t0 (mem_append_left _ hin) rfl
  -- the links and the `active` members after the section
  have hnext : (unlinkTask mem t0 t1 t2).next = update mem.next t0 (some t2) := by
    unfold unlinkTask
    rw [next_modify rfl, next_writeNext]
    split <;> rfl
  have hactive : ∀ x, ((unlinkTask mem t0 t1 t2).task x).active = (mem.task x).active := by
    intro x
    unfold unlinkTask
    rw [active_modify rfl, active_writeNext]
    split <;> rfl
  have hstatic : (unlinkTask mem t0 t1 t2).taskHead = mem.taskHead ∧
      (unlinkTask mem t0 t1 t2).taskTail = (if t1 = mem.taskTail then t0 else mem.taskTail) ∧
      (unlinkTask mem t0 t1 t2).taskPoolHead = mem.taskPoolHead ∧
      (unlinkTask mem t0 t1 t2).taskPoolCount = mem.taskPoolCount := by
    unfold unlinkTask TaskMem.writeNext TaskMem.modify
    split <;> exact ⟨rfl, rfl, rfl, rfl⟩
  refine ⟨l₁ ++ t0 :: l₂, ?_, ?_, hstatic.2.2.2.trans h.count, hperm.nodup_iff.mp hapart,
    fun x hx => h.known x (hperm.mem_iff.mpr hx), ?_, ?_, ?_, ?_⟩
  · simp only [hnext, hstatic.1, hstatic.2.1]
    exact hring
  · simp only [hnext, hstatic.2.2.1]
    exact h.pool.update h0p _
  · have hsplit : (l₁ ++ t0 :: t1 :: l₂).Perm (t1 :: (l₁ ++ t0 :: l₂)) := by
      rw [perm_iff_count]
      simp only [count_append, count_cons]
      omega
    have herase := (h.live.trans hsplit).erase t1
    rwa [erase_cons_head] at herase
  · intro x hx
    rw [careRefs, mem_singleton] at hx
    rwa [hx]
  · intro x hx
    cases hx
  intro x hx
  rw [hactive x]
  simp only [flight, mem_append, mem_cons] at hx
  have hheld := h.held t1 rfl
  rcases hx with hx | (rfl | hx) | hx
  · exact hparked x (mem_append_left _ hx)
  · exact hheld
  · cases hx
  · exact hparked x (mem_append_right _ hx)

/-- The third section: the structure in the caretaker's hands joins the
pool. -/
theorem TaskInv.push {t2 : TaskRef} (h : TaskInv ⟨mem, .push t1 t2, created, used, live⟩ l p) :
    TaskInv ⟨pushTask mem t1, careLoop (some t2), created, used, live⟩ l (t1 :: p) := by
  have hapart := h.apart
  have hknown := h.known
  have hparked := h.parked
  have h1l : t1 ∉ l := h.not_listed (by simp [flight])
  have hperm : (l ++ (p ++ ([t1] ++ created))).Perm (l ++ (t1 :: p ++ ([] ++ created))) := by
    rw [perm_iff_count]
    simp only [count_append, count_cons]
    omega
  have h1p : t1 ∉ p := by
    have hnodup := hperm.nodup_iff.mp hapart
    rw [nodup_append, nodup_append, nodup_cons] at hnodup
    exact hnodup.2.1.1.1
  have hnext : (pushTask mem t1).next = update mem.next t1 mem.taskPoolHead :=
    next_writeNext _
  have hactive : ∀ x, ((pushTask mem t1).task x).active = (mem.task x).active :=
    active_writeNext _
  refine ⟨?_, ?_, ?_, hperm.nodup_iff.mp hapart, fun x hx => hknown x (hperm.mem_iff.mpr hx),
    h.live, h.refs, fun x hx => ?_, fun x hx => ?_⟩
  · rw [hnext]
    refine h.ring.congr fun x hx => ?_
    have hne : x ≠ t1 := fun heq => h1l (heq ▸ hx)
    rw [Function.update_of_ne hne]
  · rw [hnext]
    refine ⟨rfl, ?_⟩
    rw [Function.update_self]
    exact h.pool.update h1p _
  · have hcount := h.count
    simp only [length_cons]
    change mem.taskPoolCount + 1 = _
    rw [hcount]
    omega
  · cases hx
  · rw [hactive x]
    refine hparked x ?_
    simp only [flight, mem_append, mem_cons] at hx ⊢
    tauto

theorem TaskInv.quickTest {mem : TaskMem} {t0 : TaskRef} {t1 t : Option TaskRef}
    (h : TaskInv ⟨mem, .quickTest t0 t1 t, created, used, live⟩ l p) :
    TaskInv ⟨(careStep mem (.quickTest t0 t1 t)).1, (careStep mem (.quickTest t0 t1 t)).2,
      created, used, live⟩ l p := by
  have ht : ∀ x ∈ t.toList, x ∈ l := fun x hx =>
    h.refs x (by simp only [careRefs, mem_append]; exact .inr hx)
  cases t1 with
  | none => exact h.look (flight_careLoop t) (by simpa [careStep] using ht) (by simp [careStep])
  | some t1 =>
    have h1 : t1 ∈ l := h.refs t1 (by simp [careRefs])
    have h0 : t0 ∈ l := h.refs t0 (by simp [careRefs])
    simp only [careStep]
    split
    · exact h.look (flight_careLoop t) (by simpa using ht) (by simp)
    refine h.look rfl ?_ (by simp [heldTask])
    simp only [careRefs, mem_cons]
    rintro x (rfl | rfl | hx)
    · exact h0
    · exact h1
    · exact ht x hx

theorem TaskInv.lockActive {mem : TaskMem} {t0 t1 : TaskRef} {t : Option TaskRef}
    (h : TaskInv ⟨mem, .lockActive t0 t1 t, created, used, live⟩ l p) :
    TaskInv ⟨(careStep mem (.lockActive t0 t1 t)).1, (careStep mem (.lockActive t0 t1 t)).2,
      created, used, live⟩ l p := by
  have ht : ∀ x ∈ t.toList, x ∈ l := fun x hx => h.refs x (by simp [careRefs, hx])
  have h1 : t1 ∈ l := h.refs t1 (by simp [careRefs])
  simp only [careStep]
  split
  · exact h.look (flight_careLoop t) (by simpa using ht) (by simp)
  refine h.keep ?_ rfl rfl rfl rfl (fun x hx => ?_) rfl h.refs ?_
  · simp only
    exact next_modify rfl
  · have hne : x ≠ t1 := fun heq => hx (heq ▸ h1)
    rw [task_modify_of_ne hne]
  · intro x hx
    cases hx
    simp

theorem TaskInv.care (h : TaskInv s l p) :
    ∃ l' p', TaskInv
      { s with
        mem := (careStep s.mem s.care).1
        care := (careStep s.mem s.care).2
        live := liveAfter s } l' p' ∧
      ∀ x ∈ p', x ∈ p ∨ pushedTask s.care = some x := by
  obtain ⟨mem, care, created, used, live⟩ := s
  -- the steps after which the same structures are in the list and the pool
  have hsame : ∀ {mem' : TaskMem} {care' : CarePc},
      TaskInv ⟨mem', care', created, used, live⟩ l p →
      ∃ l' p', TaskInv ⟨mem', care', created, used, live⟩ l' p' ∧
        ∀ x ∈ p', x ∈ p ∨ pushedTask care = some x :=
    fun hi => ⟨l, p, hi, fun x hx => .inl hx⟩
  cases care with
  | idle =>
    refine hsame (h.look (by simp only [careStep]; split <;> rfl) ?_ ?_)
    · simp only [careStep]
      split
      · simp [careRefs]
      · simpa [careRefs] using h.ring.head_mem
    · simp only [careStep]
      split <;> simp [heldTask]
  | done => exact hsame h
  | visit t => exact hsame (h.look rfl h.refs (by simp [careStep, heldTask]))
  | readNext t owner =>
    have ht : t ∈ l := h.refs t (by simp [careRefs])
    refine hsame (h.look rfl ?_ (by simp [careStep, heldTask]))
    simp only [careStep, careRefs, mem_cons]
    rintro x (rfl | hx)
    · exact ht
    · exact h.ring.next_mem ht (Option.mem_toList.mp hx)
  | checkOwner t owner t1 =>
    refine hsame (h.look (by simp only [careStep]; split <;> rfl) ?_ ?_)
    · simp only [careStep]
      split <;> exact h.refs
    · simp only [careStep]
      split <;> simp [heldTask]
  | adopt t t1 =>
    refine hsame (h.keep ?_ ?_ ?_ ?_ ?_ (fun x _ => ?_) rfl h.refs (by simp [careStep, heldTask]))
      <;> simp only [careStep, adoptTask] <;> split <;> try rfl
    · exact next_modify rfl
    · exact active_modify rfl x
  | advance t0 t1 =>
    have h0 : t0 ∈ l := h.refs t0 (by simp [careRefs])
    refine hsame (h.look rfl ?_ (by simp [careStep, heldTask]))
    simp only [careStep, careRefs, cons_append, mem_cons, mem_append]
    rintro x (rfl | hx | hx)
    · exact h0
    · exact h.refs x (by simp only [careRefs, mem_cons]; exact .inr hx)
    · split at hx
      · cases hx
      · exact h.ring.next_mem h0 (Option.mem_toList.mp hx)
  | quickTest t0 t1 t => exact hsame h.quickTest
  | lockActive t0 t1 t => exact hsame h.lockActive
  | recheck t0 t1 t =>
    have ht : ∀ x ∈ t.toList, x ∈ l := fun x hx => h.refs x (by simp [careRefs, hx])
    simp only [careStep]
    split
    · exact hsame (h.release (h.refs t1 (by simp [careRefs])) ht rfl)
    · exact hsame (h.look rfl h.refs h.held)
  | readLast t0 t1 t => exact hsame (h.look rfl h.refs h.held)
  | unlink t0 t1 t t2 =>
    have ht : ∀ x ∈ t.toList, x ∈ l := fun x hx => h.refs x (by simp [careRefs, hx])
    have h1 : t1 ∈ l := h.refs t1 (by simp [careRefs])
    cases hcheck : errorAssumption mem t0 t1 t2 with
    | true =>
      have hlive : liveAfter ⟨mem, .unlink t0 t1 t t2, created, used, live⟩ = live := by
        simp only [liveAfter, careStep, hcheck]
        cases t <;> rfl
      simp only [hlive, careStep, hcheck]
      exact hsame (h.release h1 ht rfl)
    | false =>
      cases t2 with
      | none => simp [errorAssumption] at hcheck
      | some t2 =>
        obtain ⟨l', hi⟩ := h.unlink hcheck
        simp only [liveAfter, careStep, hcheck]
        exact ⟨l', p, hi, fun x hx => .inl hx⟩
  | wipe t1 t2 =>
    refine hsame (h.keep ?_ rfl rfl rfl rfl (fun x _ => ?_) rfl h.refs
      (by simp [careStep, heldTask]))
    · simp only [careStep]
      exact next_modify rfl
    · simp only [careStep]
      exact active_modify rfl x
  | push t1 t2 =>
    refine ⟨l, t1 :: p, h.push, fun x hx => ?_⟩
    rcases mem_cons.mp hx with rfl | hx
    · exact .inr rfl
    · exact .inl hx

/-! ## Runs -/

/-- What one step does to the two lists: a structure is new in the pool
only when the caretaker has put it there, and the one that is handed out
leaves it. -/
theorem TaskInv.step (h : TaskInv s l p) (hstep : TaskStep s e s') :
    ∃ l' p', TaskInv s' l' p' ∧ (∀ x ∈ p', x ∈ p ∨ e = .care (some x)) ∧
      ∀ c r, e = .fromPool c (some r) → p = r :: p' := by
  cases hstep with
  | create r t hr ht =>
    exact ⟨l, p, h.create hr ht, fun x hx => .inl hx, by simp⟩
  | append r hr =>
    obtain ⟨l', hi⟩ := h.append hr
    exact ⟨l', p, hi, fun x hx => .inl hx, by simp⟩
  | fromPool current o mem hm =>
    obtain ⟨l', p', hi, hp⟩ := h.fromPool hm
    refine ⟨l', p', hi, fun x hx => .inl ?_, fun c r heq => ?_⟩
    · cases o with
      | none =>
        rw [taskCreateFromPool_none hm] at hi
        rwa [h.pool.unique hi.pool]
      | some r =>
        rw [hp r rfl]
        exact .tail _ hx
    · simp only [TaskEvent.fromPool.injEq] at heq
      exact hp r heq.2
  | touch r t hr hnext hheld =>
    exact ⟨l, p, h.touch hr hnext hheld, fun x hx => .inl hx, by simp⟩
  | reboot =>
    exact ⟨l, p, ⟨h.ring, h.pool, h.count, h.apart, h.known, h.live, h.refs, h.held, h.parked⟩,
      fun x hx => .inl hx, by simp⟩
  | care =>
    obtain ⟨l', p', hi, hp⟩ := h.care
    refine ⟨l', p', hi, fun x hx => ?_, by simp⟩
    rcases hp x hx with hx | hx
    · exact .inl hx
    · exact .inr (by rw [hx])

/-- `task_init`: one task, alone in the list, and an empty pool. -/
structure Started (s : TaskSys) : Prop where
  tail : s.mem.taskTail = s.mem.taskHead
  no_next : s.mem.next s.mem.taskHead = none
  no_pool : s.mem.taskPoolHead = none
  count : s.mem.taskPoolCount = 0
  care : s.care = .idle
  created : s.created = []
  used : s.used = [s.mem.taskHead]
  live : s.live = [s.mem.taskHead]

theorem TaskInv.initial (h : Started s) : TaskInv s [s.mem.taskHead] [] where
  ring := ⟨⟨none, ⟨rfl, h.no_next⟩, .inr ⟨rfl, rfl⟩⟩, by simp, by simp [h.tail]⟩
  pool := h.no_pool
  count := h.count
  apart := by simp [h.care, h.created, flight]
  known := by simp [h.care, h.created, h.used, flight]
  live := by rw [h.live]
  refs := by simp [h.care, careRefs]
  held := by simp [h.care, heldTask]
  parked := by simp [h.care, h.created, flight]

/-- Between two times a structure is handed out by the pool the caretaker
has put it back. -/
def HandedOutOnce (es : List TaskEvent) : Prop :=
  ∀ r c c' es₁ es₂ es₃,
    es = es₁ ++ .fromPool c (some r) :: (es₂ ++ .fromPool c' (some r) :: es₃) →
    .care (some r) ∈ es₂

/-- A structure that was handed out and has not come back is not in the
pool. -/
def GoneSince (es : List TaskEvent) (p : List TaskRef) : Prop :=
  ∀ r c es₁ es₂, es = es₁ ++ .fromPool c (some r) :: es₂ → .care (some r) ∉ es₂ → r ∉ p

theorem snoc_eq_append_cons {α : Type} {as as₁ as₂ : List α} {a b : α}
    (h : as ++ [a] = as₁ ++ b :: as₂) :
    (as₂ = [] ∧ as = as₁ ∧ a = b) ∨ ∃ as₃, as₂ = as₃ ++ [a] ∧ as = as₁ ++ b :: as₃ := by
  rcases as₂.eq_nil_or_concat with rfl | ⟨as₃, x, rfl⟩
  · obtain ⟨h1, h2⟩ := append_inj' h rfl
    exact .inl ⟨rfl, h1, by simpa using h2⟩
  · rw [concat_eq_append, ← cons_append, ← append_assoc] at h
    obtain ⟨h1, h2⟩ := append_inj' h rfl
    rw [cons.injEq] at h2
    exact .inr ⟨as₃, by rw [concat_eq_append, h2.1], h1⟩

theorem GoneSince.snoc {es : List TaskEvent} (h : GoneSince es p) (hp : p.Nodup)
    (hnew : ∀ x ∈ p', x ∈ p ∨ e = .care (some x))
    (hout : ∀ c r, e = .fromPool c (some r) → p = r :: p') : GoneSince (es ++ [e]) p' := by
  intro r c es₁ es₂ heq hno hr
  rcases snoc_eq_append_cons heq with ⟨-, -, rfl⟩ | ⟨es₃, rfl, hes⟩
  · rw [hout c r rfl, nodup_cons] at hp
    exact hp.1 hr
  · rw [mem_append, not_or, mem_singleton] at hno
    rcases hnew r hr with hin | rfl
    · exact h r c es₁ es₃ hes hno.1 hin
    · exact hno.2 rfl

theorem HandedOutOnce.snoc {es : List TaskEvent} (h : HandedOutOnce es) (hgone : GoneSince es p)
    (hout : ∀ c r, e = .fromPool c (some r) → p = r :: p') : HandedOutOnce (es ++ [e]) := by
  intro r c c' es₁ es₂ es₃ heq
  rw [← cons_append, ← append_assoc] at heq
  rcases snoc_eq_append_cons heq with ⟨-, hes, rfl⟩ | ⟨es₄, -, hes⟩
  · by_contra hno
    refine hgone r c es₁ es₂ hes hno ?_
    rw [hout c' r rfl]
    simp
  · rw [append_assoc, cons_append] at hes
    exact h r c c' es₁ es₂ es₄ hes

/-- **The list and the pool.** After any interleaving the list through
`next` holds every live task exactly once and ends with `task_tail`, the
pool is a list of `task_pool_count` other structures, and no structure
was handed out twice without coming back in between. -/
theorem taskLists_of_run (hstart : Started s) {es : List TaskEvent}
    (hrun : Run TaskStep s es s') :
    (∃ l p, Ring s'.mem.next s'.mem.taskHead s'.mem.taskTail l ∧ s'.live.Perm l ∧
      Chain s'.mem.next s'.mem.taskPoolHead p none ∧ s'.mem.taskPoolCount = p.length ∧
      (l ++ p).Nodup) ∧
    HandedOutOnce es := by
  have hinv : ∃ l p, TaskInv s' l p ∧ GoneSince es p ∧ HandedOutOnce es := by
    refine hrun.invariant_trace
      (I := fun es s => ∃ l p, TaskInv s l p ∧ GoneSince es p ∧ HandedOutOnce es) ?_ ?_
    · rintro es s e s' ⟨l, p, hi, hgone, honce⟩ hs
      obtain ⟨l', p', hi', hnew, hout⟩ := hi.step hs
      exact ⟨l', p', hi', hgone.snoc hi.pool.nodup hnew hout, honce.snoc hgone hout⟩
    · exact ⟨_, _, TaskInv.initial hstart, by simp [GoneSince], by simp [HandedOutOnce]⟩
  obtain ⟨l, p, hi, -, honce⟩ := hinv
  refine ⟨⟨l, p, hi.ring, hi.live, hi.pool, hi.count, ?_⟩, honce⟩
  have hapart := hi.apart
  rw [← append_assoc] at hapart
  exact hapart.sublist (sublist_append_left _ _)

/-- One task, at address `1`, and a second one that joins it. -/
def oneTask : TaskSys :=
  ⟨⟨false, 1, 1, 0, none, 1, fun _ => ⟨true, none, 0, 0, 0, 0, none, false, false⟩⟩,
    .idle, [], [1], [1]⟩

theorem taskLists_of_run_twoTasks : ∃ s, Run TaskStep oneTask
      [.create 2 ⟨true, none, 2, 1, 1, 1, some 1, true, false⟩, .append 2] s ∧
    ∃ l, Ring s.mem.next s.mem.taskHead s.mem.taskTail l ∧ s.live.Perm l := by
  have hstart : Started oneTask := ⟨rfl, rfl, rfl, rfl, rfl, rfl, rfl, rfl⟩
  have hcreate := TaskStep.create oneTask 2 ⟨true, none, 2, 1, 1, 1, some 1, true, false⟩
    (by decide) rfl
  have hrun := (Run.single hcreate).snoc (TaskStep.append _ 2 (by simp))
  obtain ⟨⟨l, -, hring, hlive, -⟩, -⟩ := taskLists_of_run hstart hrun
  exact ⟨_, hrun, l, hring, hlive⟩

end Dancy.Tasks
