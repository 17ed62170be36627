import Dancy.Lib.Chain
import Dancy.Lib.Run

/-!
# The task list and the task pool (`task.c`)

Every task structure is in one of two linked lists, both through `next`:
the circular list from `task_head` to `task_tail`, which a new task joins
at the tail, and the pool of finished structures. `task_append` and
`task_create_from_pool` are single sections of `task_lock`; the caretaker
looks at the list without the lock, and then moves a finished task to the
pool in two sections, which `careStep` has as separate steps.
-/

namespace Dancy.Tasks

open Dancy.Lib List

abbrev TaskRef := Nat

/-- The members of `struct task` that the lists depend on. -/
structure Task where
  active : Bool
  next : Option TaskRef
  (id idOwner idGroup idSession : Nat)
  owner : Option TaskRef
  (detached stopped : Bool)
  deriving DecidableEq

/-- The static variables of `task.c` and the task structures. -/
structure TaskMem where
  rebooting : Bool
  (taskHead taskTail : TaskRef)
  taskPoolCount : Int
  taskPoolHead : Option TaskRef
  taskId : Nat
  task : TaskRef → Task

namespace TaskMem

/-- `task_read_next`. -/
def next (s : TaskMem) (r : TaskRef) : Option TaskRef := (s.task r).next

def modify (s : TaskMem) (r : TaskRef) (f : Task → Task) : TaskMem :=
  { s with task := Function.update s.task r (f (s.task r)) }

/-- `task_write_next`. -/
def writeNext (s : TaskMem) (r : TaskRef) (v : Option TaskRef) : TaskMem :=
  s.modify r fun t => { t with next := v }

end TaskMem

/-- `task_append`; `none` is the NULL return while rebooting. -/
def taskAppend (s : TaskMem) (newTask : TaskRef) : Option TaskRef × TaskMem :=
  let s := s.writeNext newTask (some s.taskHead)
  if !s.rebooting then
    (some newTask, { s.writeNext s.taskTail (some newTask) with taskTail := newTask })
  else (none, s)

/-- `task_create_id`; `none` is the panic. -/
def taskCreateId (s : TaskMem) : Option (Nat × TaskMem) :=
  let id := (s.taskId + 1) % 0x10000000000000000
  if id = 0 ∨ id &&& 0xC000000000000000 ≠ 0 then none
  else some (id, { s with taskId := id })

/-- `task_create_from_pool`: the outer `none` is a panic, the inner one
the NULL return. -/
def taskCreateFromPool (s : TaskMem) (current : TaskRef) :
    Option (Option TaskRef × TaskMem) :=
  match s.taskPoolHead with
  | none => some (none, s)
  | some newTask =>
    if s.rebooting then some (none, s)
    else
      let s := { s with
          taskPoolCount := s.taskPoolCount - 1
          taskPoolHead := s.next newTask }
      let s := s.writeNext newTask (some s.taskHead)
      let s := { s.writeNext s.taskTail (some newTask) with taskTail := newTask }
      if !(s.task newTask).active then none
      else
        match taskCreateId s with
        | none => none
        | some (id, s) =>
          let cur := s.task current
          some (some newTask, s.modify newTask fun t =>
            { t with
              id := id
              idOwner := cur.id
              idGroup := cur.idGroup
              idSession := cur.idSession
              owner := some current })

/-! ## The caretaker -/

/-- Where `task_caretaker` stands, with its local variables. In the pass
over the list `t0` is the structure that is looked at, `t1` the one after
it, `t` the one that is looked at next (`none` after the last one) and
`t2` the one after `t1`. -/
inductive CarePc where
  | idle
  | done
  | visit (t : TaskRef)
  | readNext (t : TaskRef) (owner : Option TaskRef)
  | checkOwner (t : TaskRef) (owner t1 : Option TaskRef)
  | adopt (t : TaskRef) (t1 : Option TaskRef)
  | advance (t0 : TaskRef) (t1 : Option TaskRef)
  | quickTest (t0 : TaskRef) (t1 t : Option TaskRef)
  | lockActive (t0 t1 : TaskRef) (t : Option TaskRef)
  | recheck (t0 t1 : TaskRef) (t : Option TaskRef)
  | readLast (t0 t1 : TaskRef) (t : Option TaskRef)
  | unlink (t0 t1 : TaskRef) (t t2 : Option TaskRef)
  | wipe (t1 t2 : TaskRef)
  | push (t1 t2 : TaskRef)
  deriving DecidableEq

/-- The head of the inner loop: `while (t != NULL)`. -/
def careLoop : Option TaskRef → CarePc
  | none => .idle
  | some t => .visit t

/-- `owner && owner->id != t->id_owner`. -/
def ownerLost (s : TaskMem) (t : TaskRef) (owner : Option TaskRef) : Bool :=
  match owner with
  | none => false
  | some o => (s.task o).id != (s.task t).idOwner

/-- The first section: a task whose owner is gone goes to the first task. -/
def adoptTask (s : TaskMem) (t : TaskRef) : TaskMem :=
  if ownerLost s t (s.task t).owner then
    s.modify t fun x => { x with idOwner := 1, owner := some s.taskHead }
  else s

/-- `error_assumption`: what was read without the lock no longer holds. -/
def errorAssumption (s : TaskMem) (t0 t1 : TaskRef) (t2 : Option TaskRef) : Bool :=
  t1 == s.taskHead || s.next t0 != some t1 || s.next t1 != t2 ||
    (t0 == t1 || some t0 == t2 || some t1 == t2 || t2 == none)

/-- The second section, when nothing has changed: `t1` leaves the list. -/
def unlinkTask (s : TaskMem) (t0 t1 t2 : TaskRef) : TaskMem :=
  let s := if t1 = s.taskTail then { s with taskTail := t0 } else s
  (s.writeNext t0 (some t2)).modify t1 fun x =>
    { x with
      id := 0, idOwner := 0, idGroup := 0, idSession := 0, owner := none
      detached := false, stopped := false }

/-- The `memset` of everything after `next`, without the lock. -/
def wipeTask (s : TaskMem) (t1 : TaskRef) : TaskMem :=
  s.modify t1 fun x =>
    { x with
      id := 0, idOwner := 0, idGroup := 0, idSession := 0, owner := none
      detached := false, stopped := false }

/-- The third section: `t1` joins the pool. -/
def pushTask (s : TaskMem) (t1 : TaskRef) : TaskMem :=
  let s := s.writeNext t1 s.taskPoolHead
  { s with taskPoolCount := s.taskPoolCount + 1, taskPoolHead := some t1 }

def unlockActive (s : TaskMem) (t1 : TaskRef) : TaskMem :=
  s.modify t1 fun x => { x with active := false }

/-- One step of `task_caretaker`. -/
def careStep (s : TaskMem) : CarePc → TaskMem × CarePc
  | .idle => (s, if s.rebooting then .done else .visit s.taskHead)
  | .done => (s, .done)
  | .visit t => (s, .readNext t (s.task t).owner)
  | .readNext t owner => (s, .checkOwner t owner (s.next t))
  | .checkOwner t owner t1 =>
    (s, if ownerLost s t owner then .adopt t t1 else .advance t t1)
  | .adopt t t1 => (adoptTask s t, .advance t t1)
  | .advance t0 t1 =>
    let t := s.next t0
    (s, .quickTest t0 t1 (if t = some s.taskHead then none else t))
  | .quickTest _ none t => (s, careLoop t)
  | .quickTest t0 (some t1) t =>
    if !(s.task t1).detached || !(s.task t1).stopped then (s, careLoop t)
    else (s, .lockActive t0 t1 t)
  | .lockActive t0 t1 t =>
    if (s.task t1).active then (s, careLoop t)
    else (s.modify t1 fun x => { x with active := true }, .recheck t0 t1 t)
  | .recheck t0 t1 t =>
    if !(s.task t1).detached || !(s.task t1).stopped then
      (unlockActive s t1, careLoop t)
    else (s, .readLast t0 t1 t)
  | .readLast t0 t1 t => (s, .unlink t0 t1 t (s.next t1))
  | .unlink t0 t1 t t2 =>
    if errorAssumption s t0 t1 t2 then (unlockActive s t1, careLoop t)
    else
      match t2 with
      | none => (unlockActive s t1, careLoop t)
      | some t2 => (unlinkTask s t0 t1 t2, .wipe t1 t2)
  | .wipe t1 t2 => (wipeTask s t1, .push t1 t2)
  | .push t1 t2 => (pushTask s t1, careLoop (some t2))

/-- The lists, the caretaker, and where the structures are: `used` are
all that were ever allocated, `created` those not appended yet, and
`live` those that have joined the list and not been taken out. -/
structure TaskSys where
  mem : TaskMem
  care : CarePc
  (created used live : List TaskRef)

inductive TaskEvent where
  | create (r : TaskRef) (t : Task)
  | append (r : TaskRef)
  | fromPool (current : TaskRef) (r : Option TaskRef)
  | touch (r : TaskRef) (t : Task)
  | reboot
  | care (pushed : Option TaskRef)
  deriving DecidableEq

/-- The structure whose `active` the caretaker has locked. -/
def heldTask : CarePc → Option TaskRef
  | .recheck _ t1 _ => some t1
  | .readLast _ t1 _ => some t1
  | .unlink _ t1 _ _ => some t1
  | _ => none

/-- The structure a caretaker step puts into the pool. -/
def pushedTask : CarePc → Option TaskRef
  | .push t1 _ => some t1
  | _ => none

def liveAfter (s : TaskSys) : List TaskRef :=
  match s.care, (careStep s.mem s.care).2 with
  | .unlink .., .wipe t1 _ => s.live.erase t1
  | _, _ => s.live

/-- One step of any processor. `touch` is all other code: it may change
a live task, its `next` apart, and its `active` while the caretaker has
that locked. -/
inductive TaskStep : TaskSys → TaskEvent → TaskSys → Prop where
  | create (s : TaskSys) (r : TaskRef) (t : Task) :
      r ∉ s.used → t.active = true →
      TaskStep s (.create r t)
        { s with
          mem := s.mem.modify r fun _ => t
          created := r :: s.created
          used := r :: s.used }
  | append (s : TaskSys) (r : TaskRef) :
      r ∈ s.created →
      TaskStep s (.append r)
        { s with
          mem := (taskAppend s.mem r).2
          created := s.created.erase r
          live := (taskAppend s.mem r).1.toList ++ s.live }
  | fromPool (s : TaskSys) (current : TaskRef) (r : Option TaskRef) (mem : TaskMem) :
      taskCreateFromPool s.mem current = some (r, mem) →
      TaskStep s (.fromPool current r) { s with mem := mem, live := r.toList ++ s.live }
  | touch (s : TaskSys) (r : TaskRef) (t : Task) :
      r ∈ s.live → t.next = s.mem.next r →
      (heldTask s.care = some r → t.active = (s.mem.task r).active) →
      TaskStep s (.touch r t) { s with mem := s.mem.modify r fun _ => t }
  | reboot (s : TaskSys) :
      TaskStep s .reboot { s with mem := { s.mem with rebooting := true } }
  | care (s : TaskSys) :
      TaskStep s (.care (pushedTask s.care))
        { s with
          mem := (careStep s.mem s.care).1
          care := (careStep s.mem s.care).2
          live := liveAfter s }

/-! ## What holds of the task list and the pool in every run -/

/-- The list through `next`: from `head` to `tail` and then back to
`head`, except that the first task alone has no `next` yet. -/
structure Ring (next : TaskRef → Option TaskRef) (head tail : TaskRef)
    (l : List TaskRef) : Prop where
  chain : ∃ e, Chain next (some head) l e ∧ (e = some head ∧ 2 ≤ l.length ∨ e = none ∧ l = [head])
  nodup : l.Nodup
  last : l.getLast? = some tail

variable {next : TaskRef → Option TaskRef} {head tail r : TaskRef} {l p : List TaskRef}

section

variable (h : Ring next head tail l)
include h

theorem Ring.congr {next' : TaskRef → Option TaskRef} (heq : ∀ x ∈ l, next' x = next x) :
    Ring next' head tail l := by
  obtain ⟨e, hc, he⟩ := h.chain
  exact ⟨⟨e, hc.congr heq, he⟩, h.nodup, h.last⟩

theorem Ring.split_last : ∃ front, l = front ++ [tail] := by
  obtain ⟨front, hl⟩ := getLast?_eq_some_iff.mp h.last
  exact ⟨front, hl⟩

theorem Ring.head_cons : ∃ rest, l = head :: rest := by
  obtain ⟨e, hc, -⟩ := h.chain
  obtain ⟨front, hl⟩ := h.split_last
  cases l with
  | nil => simp at hl
  | cons x rest =>
    exact ⟨rest, by rw [Option.some.inj hc.1]⟩

theorem Ring.head_mem : head ∈ l := by
  obtain ⟨rest, rfl⟩ := h.head_cons
  simp

theorem Ring.tail_mem : tail ∈ l := by
  obtain ⟨front, rfl⟩ := h.split_last
  simp

theorem Ring.next_mem {x y : TaskRef} (hx : x ∈ l) (hy : next x = some y) : y ∈ l := by
  obtain ⟨e, hc, he⟩ := h.chain
  obtain ⟨l₁, l₂, hl⟩ := append_of_mem hx
  rw [hl] at hc
  have hrest := hc.around.2
  rw [hy] at hrest
  cases l₂ with
  | nil =>
    rcases he with ⟨rfl, -⟩ | ⟨rfl, -⟩
    · rw [Option.some.inj hrest]
      exact h.head_mem
    · cases hrest
  | cons z l₂ =>
    rw [Option.some.inj hrest.1, hl]
    simp

theorem Ring.append (hr : r ∉ l) :
    Ring (Function.update (Function.update next r (some head)) tail (some r)) head r
      (l ++ [r]) := by
  obtain ⟨e, hc, -⟩ := h.chain
  obtain ⟨rest, hcons⟩ := h.head_cons
  obtain ⟨front, rfl⟩ := h.split_last
  have hnodup := h.nodup
  have hfront : tail ∉ front := by
    intro hin
    rw [nodup_append] at hnodup
    exact hnodup.2.2 tail hin tail (by simp) rfl
  refine ⟨⟨some head, ?_, .inl ⟨rfl, ?_⟩⟩, ?_, by simp⟩
  · exact (hc.update hr _).append_node hfront (Function.update_self ..) hr
  · simp
  rw [nodup_append]
  refine ⟨hnodup, by simp, fun x hx y hy heq => hr ?_⟩
  rw [mem_singleton] at hy
  rwa [← hy, ← heq]

theorem Ring.split_checked {t0 t1 : TaskRef} (h0 : t0 ∈ l) (h01 : next t0 = some t1)
    (h1 : t1 ≠ head) : ∃ l₁ l₂, l = l₁ ++ t0 :: t1 :: l₂ := by
  obtain ⟨e, hc, he⟩ := h.chain
  obtain ⟨l₁, l₂, hl⟩ := append_of_mem h0
  rw [hl] at hc
  have hrest := hc.around.2
  rw [h01] at hrest
  cases l₂ with
  | nil =>
    rcases he with ⟨rfl, -⟩ | ⟨rfl, -⟩
    · exact absurd (Option.some.inj hrest) h1
    · cases hrest
  | cons z l₂ =>
    rw [← Option.some.inj hrest.1] at hl
    exact ⟨l₁, l₂, hl⟩

end

theorem Ring.unlink {l₁ l₂ : List TaskRef} {t0 t1 t2 : TaskRef}
    (h : Ring next head tail (l₁ ++ t0 :: t1 :: l₂)) (h12 : next t1 = some t2)
    (h02 : t0 ≠ t2) :
    Ring (Function.update next t0 (some t2)) head (if t1 = tail then t0 else tail)
      (l₁ ++ t0 :: l₂) ∧ t2 ∈ l₁ ++ t0 :: l₂ := by
  obtain ⟨e, hc, he⟩ := h.chain
  have hnodup := h.nodup
  have hunlink := hc.unlink hnodup
  rw [h12] at hunlink
  have hlong : l₁ ++ t0 :: t1 :: l₂ ≠ [head] := by
    intro heq
    have hlen := congrArg length heq
    simp only [length_append, length_cons, length_nil] at hlen
    omega
  have hring : e = some head := by
    rcases he with ⟨rfl, -⟩ | ⟨-, heq⟩
    · rfl
    · exact absurd heq hlong
  subst hring
  have hsub : List.Sublist (l₁ ++ t0 :: l₂) (l₁ ++ t0 :: t1 :: l₂) :=
    List.Sublist.append_left ((sublist_cons_self t1 l₂).cons_cons t0) l₁
  have hafter : Chain next (some t2) l₂ (some head) := h12 ▸ hc.around.2.2
  have hmem : t2 ∈ l₁ ++ t0 :: l₂ := by
    cases l₂ with
    | nil =>
      -- `t1` was the last one, so `t2` is the head
      rw [Option.some.inj hafter]
      obtain ⟨rest, hcons⟩ := h.head_cons
      cases l₁ with
      | nil =>
        rw [nil_append, cons.injEq] at hcons
        simp [hcons.1]
      | cons a l₁ =>
        rw [cons_append, cons.injEq] at hcons
        simp [hcons.1]
    | cons z l₂ =>
      simp [Option.some.inj hafter.1]
  refine ⟨⟨⟨some head, hunlink, .inl ⟨rfl, ?_⟩⟩, hnodup.sublist hsub, ?_⟩, hmem⟩
  · -- `t0` and `t2` are two different members
    by_contra hshort
    have hlen : (l₁ ++ t0 :: l₂).length = 1 := by
      simp at hshort ⊢
      omega
    obtain ⟨x, hx⟩ := length_eq_one_iff.mp hlen
    have h0 : t0 ∈ l₁ ++ t0 :: l₂ := by simp
    rw [hx, mem_singleton] at h0 hmem
    exact h02 (h0.trans hmem.symm)
  · have hlast := h.last
    cases l₂ with
    | nil =>
      have heq : l₁ ++ [t0, t1] = l₁ ++ [t0] ++ [t1] := by simp
      rw [heq, getLast?_concat, Option.some.injEq] at hlast
      rw [if_pos hlast, getLast?_concat]
    | cons z l₂ =>
      have htail : (l₁ ++ t0 :: t1 :: z :: l₂).getLast? = (z :: l₂).getLast? := by
        rw [getLast?_append_cons, getLast?_cons_cons, getLast?_cons_cons]
      have htail' : (l₁ ++ t0 :: z :: l₂).getLast? = (z :: l₂).getLast? := by
        rw [getLast?_append_cons, getLast?_cons_cons]
      have hne : t1 ≠ tail := by
        rintro rfl
        rw [htail] at hlast
        have hin : t1 ∈ z :: l₂ := mem_of_getLast? hlast
        rw [nodup_append, nodup_cons, nodup_cons] at hnodup
        exact hnodup.2.1.2.1 hin
      rwa [if_neg hne, htail', ← htail]

section Edits

variable {s : TaskMem} {f : Task → Task}

theorem next_modify (hf : (f (s.task r)).next = (s.task r).next) :
    (s.modify r f).next = s.next := by
  funext x
  by_cases hx : x = r
  · subst hx
    simpa [TaskMem.next, TaskMem.modify] using hf
  · simp [TaskMem.next, TaskMem.modify, hx]

@[simp] theorem next_writeNext (v : Option TaskRef) :
    (s.writeNext r v).next = Function.update s.next r v := by
  funext x
  by_cases hx : x = r
  · subst hx
    simp [TaskMem.next, TaskMem.writeNext, TaskMem.modify]
  · simp [TaskMem.next, TaskMem.writeNext, TaskMem.modify, hx]

theorem task_modify_of_ne {x : TaskRef} (hx : x ≠ r) : (s.modify r f).task x = s.task x := by
  simp [TaskMem.modify, hx]

@[simp] theorem task_modify_self : (s.modify r f).task r = f (s.task r) := by
  simp [TaskMem.modify]

@[simp] theorem active_writeNext (v : Option TaskRef) (x : TaskRef) :
    ((s.writeNext r v).task x).active = (s.task x).active := by
  by_cases hx : x = r
  · subst hx
    simp [TaskMem.writeNext]
  · rw [TaskMem.writeNext, task_modify_of_ne hx]

theorem active_modify (hf : (f (s.task r)).active = (s.task r).active) (x : TaskRef) :
    ((s.modify r f).task x).active = (s.task x).active := by
  by_cases hx : x = r
  · subst hx
    rw [task_modify_self, hf]
  · rw [task_modify_of_ne hx]

end Edits

/-! ## The invariant -/

/-- The structure the caretaker has unlinked and not pooled yet. -/
def flight : CarePc → List TaskRef
  | .wipe t1 _ => [t1]
  | .push t1 _ => [t1]
  | _ => []

/-- The local variables of the caretaker that name members of the list. -/
def careRefs : CarePc → List TaskRef
  | .idle => []
  | .done => []
  | .visit t => [t]
  | .readNext t _ => [t]
  | .checkOwner t _ t1 => t :: t1.toList
  | .adopt t t1 => t :: t1.toList
  | .advance t0 t1 => t0 :: t1.toList
  | .quickTest t0 t1 t => t0 :: t1.toList ++ t.toList
  | .lockActive t0 t1 t => t0 :: t1 :: t.toList
  | .recheck t0 t1 t => t0 :: t1 :: t.toList
  | .readLast t0 t1 t => t0 :: t1 :: t.toList
  | .unlink t0 t1 t _ => t0 :: t1 :: t.toList
  | .wipe _ t2 => [t2]
  | .push _ t2 => [t2]

/-- `l` is the ring and `p` the pool; no task is in two places. -/
structure TaskInv (s : TaskSys) (l p : List TaskRef) : Prop where
  ring : Ring s.mem.next s.mem.taskHead s.mem.taskTail l
  pool : Chain s.mem.next s.mem.taskPoolHead p none
  count : s.mem.taskPoolCount = p.length
  apart : (l ++ (p ++ (flight s.care ++ s.created))).Nodup
  known : ∀ r ∈ l ++ (p ++ (flight s.care ++ s.created)), r ∈ s.used
  live : s.live.Perm l
  refs : ∀ r ∈ careRefs s.care, r ∈ l
  held : ∀ r, heldTask s.care = some r → (s.mem.task r).active = true
  parked : ∀ r ∈ p ++ (flight s.care ++ s.created), (s.mem.task r).active = true

variable {s : TaskSys}

theorem TaskInv.not_listed (h : TaskInv s l p)
    (hr : r ∈ p ++ (flight s.care ++ s.created)) : r ∉ l := by
  intro hl
  have hapart := h.apart
  rw [nodup_append] at hapart
  exact hapart.2.2 r hl r hr rfl

theorem TaskInv.keep (h : TaskInv s l p) {mem : TaskMem} {care : CarePc}
    (hnext : mem.next = s.mem.next) (hhead : mem.taskHead = s.mem.taskHead)
    (htail : mem.taskTail = s.mem.taskTail)
    (hpool : mem.taskPoolHead = s.mem.taskPoolHead)
    (hcount : mem.taskPoolCount = s.mem.taskPoolCount)
    (hactive : ∀ r, r ∉ l → (mem.task r).active = (s.mem.task r).active)
    (hflight : flight care = flight s.care) (hrefs : ∀ r ∈ careRefs care, r ∈ l)
    (hheld : ∀ r, heldTask care = some r → (mem.task r).active = true) :
    TaskInv { s with mem := mem, care := care } l p where
  ring := by
    rw [hnext, hhead, htail]
    exact h.ring
  pool := by
    rw [hnext, hpool]
    exact h.pool
  count := hcount.trans h.count
  apart := by
    rw [hflight]
    exact h.apart
  known := by
    rw [hflight]
    exact h.known
  live := h.live
  refs := hrefs
  held := hheld
  parked := by
    rw [hflight]
    intro r hr
    rw [hactive r (h.not_listed hr)]
    exact h.parked r hr

theorem TaskInv.look (h : TaskInv s l p) {care : CarePc}
    (hflight : flight care = flight s.care) (hrefs : ∀ r ∈ careRefs care, r ∈ l)
    (hheld : ∀ r, heldTask care = some r → (s.mem.task r).active = true) :
    TaskInv { s with care := care } l p :=
  h.keep rfl rfl rfl rfl rfl (fun _ _ => rfl) hflight hrefs hheld

variable (t : Option TaskRef)

@[simp] theorem flight_careLoop : flight (careLoop t) = [] := by
  cases t <;> rfl

@[simp] theorem careRefs_careLoop : careRefs (careLoop t) = t.toList := by
  cases t <;> rfl

@[simp] theorem heldTask_careLoop : heldTask (careLoop t) = none := by
  cases t <;> rfl

end Dancy.Tasks
