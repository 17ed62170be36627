import Dancy.Lib.Run

/-!
# Waiting for descendants (`task_wait_descendant_shared`, `task_exit`)

A parent samples its event counter, scans the task list for a stopped
child, and blocks when it finds none; a child publishes its return value,
then `stopped`, then increments the counter of its owner. Every access of
the parent and of a child to a shared member is a step of its own.

The state has a few members the code does not have: the serial numbers
of the tasks, the number of increments, and the log of the `task_exit`
calls. No step depends on them.
-/

namespace Dancy.Tasks

open Dancy.Lib List Option

/-- Where a task stands in `task_exit`; the value is its argument. The
last number is the count of the increments made so far. -/
inductive ExitPc where
  | running
  | published (retval : Int)
  | stopped (retval : Int)
  | counted (retval : Int) (n : Nat)
  deriving DecidableEq

/-- The argument of `task_exit`, once it has been called. -/
def ExitPc.value : ExitPc → Option Int
  | .running => none
  | .published r => some r
  | .stopped r => some r
  | .counted r _ => some r

/-- Whether `stopped` has been set. -/
def ExitPc.hasStopped : ExitPc → Bool
  | .stopped _ => true
  | .counted _ _ => true
  | _ => false

/-- Whether the counter of the owner has been incremented. -/
def ExitPc.hasCounted : ExitPc → Bool
  | .counted _ _ => true
  | _ => false

/-- A task of the list, as the waiting parent sees it; `own` stands for
`t->owner == current`. -/
structure Kin where
  (serial id idGroup : Nat)
  own : Bool
  retval : Int
  (stopped detached : Bool)
  exit : ExitPc
  deriving DecidableEq

/-- The arguments: `*id` (zero for a null pointer), `id_group` and
`mode_trywait`. -/
structure Wait where
  (inId idGroup : Nat)
  modeTrywait : Bool
  deriving DecidableEq

/-- `out_id` and `out_retval`, and which task they are of. -/
structure Out where
  (serial id : Nat)
  retval : Int
  deriving DecidableEq

def noOut : Out := ⟨0, 0, 0⟩

inductive WaitCode where
  | success
  | interrupt
  | retry
  | empty

/-- Where the parent stands. `i` is the position of `t` in the list and
`ds` is `descendant_state`. -/
inductive ParentPc where
  | idle
  | sample (w : Wait)
  | store (w : Wait) (v : Nat)
  | test (w : Wait) (i : Nat) (ds : Bool)
  | check (w : Wait) (i : Nat) (ds : Bool)
  | readStopped (w : Wait) (i : Nat) (ds valid : Bool)
  | tryDetach (w : Wait) (i : Nat) (ds : Bool)
  | readId (w : Wait) (i : Nat)
  | readRetval (w : Wait) (i serial id : Nat)
  | next (w : Wait) (i : Nat) (ds : Bool) (out : Out)
  | decide (w : Wait) (ds : Bool) (out : Out)
  | blocked (w : Wait)
  deriving DecidableEq

/-- The list from `task_head`, the two counters `descendant.data`, and
what the waits have returned, the last one first. -/
structure WaitSys where
  tasks : List Kin
  (taskStructLimit data0 data1 : Nat)
  pc : ParentPc
  code : Option WaitCode
  reports : List Out
  (nextSerial total sampled : Nat)
  exits : List Out

/-- `valid_candidate` before `stopped` is looked at. -/
def validCandidate (w : Wait) (t : Kin) : Bool :=
  t.own && !(w.inId != 0 && w.inId != t.id) && !(w.idGroup != 0 && w.idGroup != t.idGroup)

/-- One step of the parent. `env` is what it cannot foresee: a pending
signal when it decides to block, the timeout when it is blocked. The list
is circular: after the last task comes `task_head`. -/
def parentStep (s : WaitSys) (env : Bool) : WaitSys :=
  match s.pc with
  | .idle => s
  | .sample w => { s with pc := .store w s.data0, sampled := s.total }
  | .store w v => { s with data1 := v, pc := .test w 0 false }
  | .test w i ds =>
    match s.tasks[i]? with
    | none => s
    | some t =>
      { s with pc := if t.own then .check w i ds else .next w i ds noOut }
  | .check w i ds =>
    match s.tasks[i]? with
    | none => s
    | some t => { s with pc := .readStopped w i ds (validCandidate w t) }
  | .readStopped w i ds valid =>
    match s.tasks[i]? with
    | none => s
    | some t =>
      { s with
        pc := if valid && t.stopped then .tryDetach w i ds
          else .next w i (ds || valid) noOut }
  | .tryDetach w i ds =>
    match s.tasks[i]? with
    | none => s
    | some t =>
      if t.detached then { s with pc := .next w i ds noOut }
      else
        { s with
          tasks := s.tasks.set i { t with detached := true }
          pc := .readId w i }
  | .readId w i =>
    match s.tasks[i]? with
    | none => s
    | some t => { s with pc := .readRetval w i t.serial t.id }
  | .readRetval w i serial id =>
    match s.tasks[i]? with
    | none => s
    | some t => { s with pc := .next w i true ⟨serial, id, t.retval⟩ }
  | .next w i ds out =>
    { s with
      pc := if out.id = 0 ∧ i + 1 < s.tasks.length then .test w (i + 1) ds
        else .decide w ds out }
  | .decide w ds out =>
    if out.id ≠ 0 then
      { s with pc := .idle, code := some .success, reports := out :: s.reports }
    else if !ds || w.modeTrywait then
      { s with pc := .idle, code := some (if ds then .retry else .empty) }
    else if env then { s with pc := .idle, code := some .interrupt }
    else { s with pc := .blocked w }
  | .blocked w =>
    -- `task_wait_descendant_func`
    if s.data0 ≠ s.data1 ∨ env then { s with pc := .sample w } else s

/-- `current->retval = retval`. -/
def publish (s : WaitSys) (i : Nat) (t : Kin) (retval : Int) : WaitSys :=
  { s with
    tasks := s.tasks.set i { t with retval := retval, exit := .published retval }
    exits := ⟨t.serial, t.id, retval⟩ :: s.exits }

/-- `spin_trylock(&current->stopped)`. -/
def stop (s : WaitSys) (i : Nat) (t : Kin) (retval : Int) : WaitSys :=
  { s with tasks := s.tasks.set i { t with stopped := true, exit := .stopped retval } }

/-- `cpu_add32(&current->owner->descendant.data[0], 1)`; the owner of a
task that is not a child of the parent is somebody else. -/
def count (s : WaitSys) (i : Nat) (t : Kin) (retval : Int) : WaitSys :=
  if t.own then
    { s with
      tasks := s.tasks.set i { t with exit := .counted retval (s.total + 1) }
      data0 := (s.data0 + 1) % 0x100000000
      total := s.total + 1 }
  else { s with tasks := s.tasks.set i { t with exit := .counted retval 0 } }

/-- Steps of the parent (`call`, `parent`), of children, and of others. -/
inductive WaitEvent where
  | create (id idGroup : Nat) (own detached : Bool)
  | collect (i : Nat)
  | call (w : Wait)
  | parent (env : Bool)
  | publish (i : Nat) (retval : Int)
  | stop (i : Nat)
  | count (i : Nat)

/-- One step. The parent makes children, and the caretaker takes reaped
ones away, between two waits; tasks of others join the list at any time. -/
inductive WaitStep : WaitSys → WaitEvent → WaitSys → Prop where
  | create (s : WaitSys) (id idGroup : Nat) (own detached : Bool) :
      id ≠ 0 → s.tasks.length < s.taskStructLimit → (own = true → s.pc = .idle) →
      WaitStep s (.create id idGroup own detached)
        { s with
          tasks := s.tasks ++ [⟨s.nextSerial, id, idGroup, own, 0, false, detached, .running⟩]
          nextSerial := s.nextSerial + 1 }
  | collect (s : WaitSys) (i : Nat) (t : Kin) :
      s.pc = .idle → 0 < i → s.tasks[i]? = some t → t.detached = true →
      t.stopped = true →
      WaitStep s (.collect i) { s with tasks := s.tasks.eraseIdx i }
  | call (s : WaitSys) (w : Wait) :
      s.pc = .idle → WaitStep s (.call w) { s with pc := .sample w }
  | parent (s : WaitSys) (env : Bool) :
      WaitStep s (.parent env) (parentStep s env)
  | publish (s : WaitSys) (i : Nat) (t : Kin) (retval : Int) :
      s.tasks[i]? = some t → t.exit = .running →
      WaitStep s (.publish i retval) (publish s i t retval)
  | stop (s : WaitSys) (i : Nat) (t : Kin) (retval : Int) :
      s.tasks[i]? = some t → t.exit = .published retval → t.stopped = false →
      WaitStep s (.stop i) (stop s i t retval)
  | count (s : WaitSys) (i : Nat) (t : Kin) (retval : Int) :
      s.tasks[i]? = some t → t.exit = .stopped retval →
      WaitStep s (.count i) (count s i t retval)

/-! ## What is kept -/

/-- A child that fits the arguments of the wait, has incremented the
counter and has not been reaped. -/
def Pending (w : Wait) (t : Kin) : Prop :=
  validCandidate w t = true ∧ t.exit.hasCounted = true ∧ t.detached = false

/-- The same, the increment being one of the first `m`. -/
def PendingBy (w : Wait) (m : Nat) (t : Kin) : Prop :=
  validCandidate w t = true ∧ t.detached = false ∧ ∃ r n, t.exit = .counted r n ∧ n ≤ m

/-- A child of the parent that it has detached. -/
def Kin.Reaped (t : Kin) : Prop := t.own = true ∧ t.detached = true

/-- A task agrees with the log of exits and the reports. -/
structure KinOk (s : WaitSys) (t : Kin) : Prop where
  id_ne : t.id ≠ 0
  fresh : t.serial < s.nextSerial
  exited : ∀ r, t.exit.value = some r → ⟨t.serial, t.id, r⟩ ∈ s.exits ∧ t.retval = r
  alive : t.exit = .running → ∀ o ∈ s.exits, o.serial ≠ t.serial
  stopped : t.stopped = t.exit.hasStopped
  counted : ∀ r n, t.own = true → t.exit = .counted r n → n ≤ s.total
  reaped : ∀ o ∈ s.reports, o.serial = t.serial → t.Reaped

/-- No task before position `i` was pending when the counter was sampled. -/
def Scanned (s : WaitSys) (w : Wait) (i : Nat) : Prop :=
  ∀ j t, j < i → s.tasks[j]? = some t → ¬ PendingBy w s.sampled t

/-- The children that have not incremented the counter yet. -/
def outstanding (tasks : List Kin) : Nat :=
  tasks.countP fun t => t.own && !t.exit.hasCounted

/-- The increments since the sample and those to come are few. -/
def Few (s : WaitSys) : Prop :=
  s.total - s.sampled + outstanding s.tasks ≤ s.taskStructLimit

/-- The sample has been stored in the second counter. -/
structure Stored (s : WaitSys) : Prop where
  few : Few s
  data1 : s.data1 = s.sampled % 0x100000000

/-- A result that is on its way back to the caller. -/
structure Claimed (s : WaitSys) (out : Out) : Prop where
  exited : out ∈ s.exits
  unreported : ∀ o ∈ s.reports, o.serial ≠ out.serial
  reaped : ∀ t ∈ s.tasks, t.serial = out.serial → t.Reaped

/-- The task at position `i` has been reaped and not reported yet. -/
structure ReapedAt (s : WaitSys) (i : Nat) (t : Kin) : Prop where
  at_pos : s.tasks[i]? = some t
  reaped : t.Reaped
  stopped : t.stopped = true
  unreported : ∀ o ∈ s.reports, o.serial ≠ t.serial

/-- The state of a scan whose `out` is given, `i` tasks being done. -/
def ScanState (s : WaitSys) (w : Wait) (i : Nat) (out : Out) : Prop :=
  (out.id = 0 → Stored s ∧ Scanned s w i) ∧ (out.id ≠ 0 → Claimed s out)

def Phase (s : WaitSys) : ParentPc → Prop
  | .idle => True
  | .sample _ => True
  | .store _ v => Few s ∧ v = s.sampled % 0x100000000
  | .test w i _ => i < s.tasks.length ∧ Stored s ∧ Scanned s w i
  | .check w i _ => i < s.tasks.length ∧ Stored s ∧ Scanned s w i
  | .readStopped w i _ valid =>
    i < s.tasks.length ∧ Stored s ∧ Scanned s w i ∧
      ∀ t, s.tasks[i]? = some t → validCandidate w t = valid
  | .tryDetach w i _ =>
    i < s.tasks.length ∧ Stored s ∧ Scanned s w i ∧
      ∀ t, s.tasks[i]? = some t → t.stopped = true ∧ t.own = true
  | .readId _ i => ∃ t, ReapedAt s i t
  | .readRetval _ i serial id => ∃ t, ReapedAt s i t ∧ serial = t.serial ∧ id = t.id
  | .next w i _ out => ScanState s w (i + 1) out
  | .decide w _ out => ScanState s w s.tasks.length out
  | .blocked w => Stored s ∧ Scanned s w s.tasks.length

/-- What every step of the parent and the children keeps. -/
structure WaitInv (s : WaitSys) : Prop where
  limit : s.taskStructLimit ≤ 131072
  room : s.tasks.length ≤ s.taskStructLimit
  nonempty : 0 < s.tasks.length
  data0 : s.data0 = s.total % 0x100000000
  sampled_le : s.sampled ≤ s.total
  serials : (s.tasks.map (·.serial)).Nodup
  kin : ∀ t ∈ s.tasks, KinOk s t
  exits_lt : ∀ o ∈ s.exits, o.serial < s.nextSerial
  exits_once : (s.exits.map (·.serial)).Nodup
  reports_exited : ∀ o ∈ s.reports, o ∈ s.exits
  reports_once : (s.reports.map (·.serial)).Nodup
  phase : Phase s s.pc

variable {s s' : WaitSys} {w : Wait} {i : Nat} {t t' : Kin}

/-! ## The list of the tasks -/

variable {l : List Kin} {u : Kin} {m k : Nat} {out : Out} {pc : ParentPc}

theorem split_at (h : l[i]? = some t) : ∃ l₁ l₂, l = l₁ ++ t :: l₂ ∧ l₁.length = i := by
  obtain ⟨hi, hget⟩ := List.getElem?_eq_some_iff.mp h
  refine ⟨l.take i, l.drop (i + 1), ?_, by simp; omega⟩
  simp [← hget]

theorem set_split {l₁ l₂ : List Kin} : (l₁ ++ t :: l₂).set l₁.length t' = l₁ ++ t' :: l₂ := by
  simp

theorem serials_set (h : l[i]? = some t) (hs : t'.serial = t.serial) :
    (l.set i t').map (·.serial) = l.map (·.serial) := by
  obtain ⟨l₁, l₂, rfl, rfl⟩ := split_at h
  simp [hs]

theorem outstanding_set (h : l[i]? = some t) :
    outstanding (l.set i t') + (if t.own && !t.exit.hasCounted then 1 else 0)
      = outstanding l + (if t'.own && !t'.exit.hasCounted then 1 else 0) := by
  obtain ⟨l₁, l₂, rfl, rfl⟩ := split_at h
  rw [set_split]
  simp only [outstanding, countP_append, countP_cons]
  omega

theorem outstanding_le (l : List Kin) : outstanding l ≤ l.length := countP_le_length

theorem getElem?_set_cases {j : Nat} (hu : (l.set i t')[j]? = some u) :
    (j = i ∧ u = t') ∨ (j ≠ i ∧ l[j]? = some u) := by
  rw [getElem?_set] at hu
  split at hu
  · rename_i hij
    split at hu
    · exact .inl ⟨hij.symm, (some.inj hu).symm⟩
    · cases hu
  · rename_i hij
    exact .inr ⟨fun heq => hij heq.symm, hu⟩

theorem getElem?_set_of (h : l[i]? = some t) : (l.set i t')[i]? = some t' := by
  obtain ⟨hi, -⟩ := List.getElem?_eq_some_iff.mp h
  simp [hi]

theorem mem_of_pos (h : l[i]? = some t) : t ∈ l := mem_of_getElem? h

theorem WaitInv.same_serial (h : WaitInv s) {u v : Kin} (hu : u ∈ s.tasks) (hv : v ∈ s.tasks)
    (heq : u.serial = v.serial) : u = v :=
  inj_on_of_nodup_map h.serials hu hv heq

/-! ## Steps of a child -/

/-- What a step of `task_exit` leaves as it was, `m` increments having
been sampled. -/
structure Ages (m : Nat) (t t' : Kin) : Prop where
  serial : t'.serial = t.serial
  id : t'.id = t.id
  idGroup : t'.idGroup = t.idGroup
  own : t'.own = t.own
  detached : t'.detached = t.detached
  stopped : t.stopped = true → t'.stopped = true
  early : t'.own = true → ∀ r n, t'.exit = .counted r n → n ≤ m → t.exit = .counted r n

theorem Ages.valid (h : Ages m t t') : validCandidate w t' = validCandidate w t := by
  simp only [validCandidate, h.own, h.id, h.idGroup]

theorem Ages.reaped (h : Ages m t t') (ht : t.Reaped) : t'.Reaped :=
  ⟨h.own.trans ht.1, h.detached.trans ht.2⟩

theorem Ages.pendingBy (h : Ages m t t') (hp : PendingBy w m t') : PendingBy w m t := by
  obtain ⟨hv, hd, r, n, he, hn⟩ := hp
  have hown : t'.own = true := by
    simp only [validCandidate, Bool.and_eq_true] at hv
    exact hv.1.1
  exact ⟨h.valid ▸ hv, h.detached ▸ hd, r, n, h.early hown r n he hn, hn⟩

theorem Scanned.age (h : Scanned s w i) (hk : s.tasks[k]? = some t) (hage : Ages s.sampled t t')
    (htasks : s'.tasks = s.tasks.set k t') (hsampled : s'.sampled = s.sampled) :
    Scanned s' w i := by
  intro j u hj hu hp
  rw [htasks] at hu
  rw [hsampled] at hp
  rcases getElem?_set_cases hu with ⟨rfl, rfl⟩ | ⟨-, hu⟩
  · exact h j t hj hk (hage.pendingBy hp)
  · exact h j u hj hu hp

theorem ReapedAt.age (h : ReapedAt s i t) {u u' : Kin} (hk : s.tasks[k]? = some u)
    (hage : Ages s.sampled u u') (htasks : s'.tasks = s.tasks.set k u')
    (hreports : s'.reports = s.reports) :
    ∃ t', ReapedAt s' i t' ∧ t'.serial = t.serial ∧ t'.id = t.id := by
  by_cases hik : i = k
  · subst hik
    have htu : t = u := some.inj (h.at_pos.symm.trans hk)
    subst htu
    refine ⟨u', ⟨by rw [htasks]; exact getElem?_set_of hk, hage.reaped h.reaped,
      hage.stopped h.stopped, ?_⟩, hage.serial, hage.id⟩
    rw [hreports, hage.serial]
    exact h.unreported
  · refine ⟨t, ⟨?_, h.reaped, h.stopped, by rw [hreports]; exact h.unreported⟩, rfl, rfl⟩
    rw [htasks, getElem?_set_ne (fun heq => hik heq.symm)]
    exact h.at_pos

theorem Claimed.age (h : Claimed s out) (hk : s.tasks[k]? = some t) (hage : Ages s.sampled t t')
    (htasks : s'.tasks = s.tasks.set k t') (hreports : s'.reports = s.reports)
    (hexits : ∀ o ∈ s.exits, o ∈ s'.exits) : Claimed s' out := by
  refine ⟨hexits out h.exited, by rw [hreports]; exact h.unreported, fun u hu hserial => ?_⟩
  rw [htasks] at hu
  rcases mem_or_eq_of_mem_set hu with hu | rfl
  · exact h.reaped u hu hserial
  · exact hage.reaped (h.reaped t (mem_of_pos hk) (hage.serial ▸ hserial))

theorem Phase.age (h : Phase s pc) (hk : s.tasks[k]? = some t) (hage : Ages s.sampled t t')
    (htasks : s'.tasks = s.tasks.set k t') (hsampled : s'.sampled = s.sampled)
    (hdata1 : s'.data1 = s.data1) (hreports : s'.reports = s.reports)
    (hexits : ∀ o ∈ s.exits, o ∈ s'.exits) (hcount : Few s → Few s') : Phase s' pc := by
  have hlen : s'.tasks.length = s.tasks.length := by rw [htasks, length_set]
  have hstored : Stored s → Stored s' := fun hs =>
    ⟨hcount hs.few, by rw [hdata1, hsampled]; exact hs.data1⟩
  have hscan : ∀ {w i}, Scanned s w i → Scanned s' w i := fun hs =>
    hs.age hk hage htasks hsampled
  have hstate : ∀ {w i out}, ScanState s w i out → ScanState s' w i out := fun hs =>
    ⟨fun h0 => ⟨hstored (hs.1 h0).1, hscan (hs.1 h0).2⟩,
      fun h0 => (hs.2 h0).age hk hage htasks hreports hexits⟩
  -- a fact about the task at position `i` that a step of a child keeps
  have hat : ∀ {i : Nat} {P : Kin → Prop}, (∀ u, s.tasks[i]? = some u → P u) →
      (P t → P t') → ∀ u, s'.tasks[i]? = some u → P u := by
    intro i P hP hkeep u hu
    rw [htasks] at hu
    rcases getElem?_set_cases hu with ⟨rfl, rfl⟩ | ⟨-, hu⟩
    · exact hkeep (hP t hk)
    · exact hP u hu
  cases pc with
  | idle | sample => trivial
  | store w v => exact ⟨hcount h.1, by rw [hsampled]; exact h.2⟩
  | test w i ds | check w i ds => exact ⟨by rw [hlen]; exact h.1, hstored h.2.1, hscan h.2.2⟩
  | readStopped w i ds valid =>
    exact ⟨by rw [hlen]; exact h.1, hstored h.2.1, hscan h.2.2.1,
      hat h.2.2.2 fun hv => hage.valid.trans hv⟩
  | tryDetach w i ds =>
    exact ⟨by rw [hlen]; exact h.1, hstored h.2.1, hscan h.2.2.1,
      hat h.2.2.2 fun hu => ⟨hage.stopped hu.1, hage.own.trans hu.2⟩⟩
  | readId w i =>
    obtain ⟨u, hu⟩ := h
    obtain ⟨u', hu', -⟩ := hu.age hk hage htasks hreports
    exact ⟨u', hu'⟩
  | readRetval w i serial id =>
    obtain ⟨u, hu, hserial, hid⟩ := h
    obtain ⟨u', hu', hserial', hid'⟩ := hu.age hk hage htasks hreports
    exact ⟨u', hu', hserial.trans hserial'.symm, hid.trans hid'.symm⟩
  | next w i ds out => exact hstate h
  | decide w ds out =>
    rw [Phase, hlen]
    exact hstate h
  | blocked w => exact ⟨hstored h.1, by rw [hlen]; exact hscan h.2⟩

section

variable (h : WaitInv s) (hi : s.tasks[i]? = some t)
include h hi

/-- A step of a child: the task at position `i` ages, and the log of the
exits may get an entry for it. -/
theorem WaitInv.age (hage : Ages s.sampled t t') {exits : List Out} {data0 total : Nat}
    (hexits : ∀ o ∈ s.exits, o ∈ exits) (hnew : ∀ o ∈ exits, o ∈ s.exits ∨ o.serial = t.serial)
    (honce : (exits.map (·.serial)).Nodup) (htotal : s.total ≤ total)
    (hdata0 : data0 = total % 0x100000000)
    (hkin : KinOk { s with tasks := s.tasks.set i t', exits := exits, data0 := data0, total := total } t')
    (hcount : Few s → Few { s with tasks := s.tasks.set i t', exits := exits, data0 := data0, total := total }) :
    WaitInv
      { s with
        tasks := s.tasks.set i t', exits := exits, data0 := data0, total := total } where
  limit := h.limit
  room := by
    rw [length_set]
    exact h.room
  nonempty := by
    rw [length_set]
    exact h.nonempty
  data0 := hdata0
  sampled_le := le_trans h.sampled_le htotal
  serials := by
    simp only [serials_set hi hage.serial]
    exact h.serials
  kin := fun u hu => by
    rcases mem_or_eq_of_mem_set hu with hin | rfl
    · by_cases hserial : u.serial = t.serial
      · -- `u` is the old task, which is no longer in the list under `i`
        obtain ⟨l₁, l₂, hl, rfl⟩ := split_at hi
        have hnodup := h.serials
        simp only [hl, set_split] at hu hnodup
        rw [map_append, map_cons, nodup_append, nodup_cons] at hnodup
        rcases mem_append.mp hu with hu | hu
        · exact absurd hserial (hnodup.2.2 _ (mem_map_of_mem hu) _ (by simp))
        · rcases mem_cons.mp hu with rfl | hu
          · exact hkin
          · exact absurd (mem_map_of_mem hu) (hserial ▸ hnodup.2.1.1)
      · have hold := h.kin u hin
        exact ⟨hold.id_ne, hold.fresh,
          fun r hr => ⟨hexits _ (hold.exited r hr).1, (hold.exited r hr).2⟩,
          fun hrun o ho => (hnew o ho).elim (hold.alive hrun o)
            fun heq heq' => hserial (heq'.symm.trans heq),
          hold.stopped, fun r n ho he => le_trans (hold.counted r n ho he) htotal,
          hold.reaped⟩
    · exact hkin
  exits_lt := fun o ho => by
    rcases hnew o ho with hold | heq
    · exact h.exits_lt o hold
    · rw [heq]
      exact (h.kin t (mem_of_pos hi)).fresh
  exits_once := honce
  reports_exited := fun o ho => hexits o (h.reports_exited o ho)
  reports_once := h.reports_once
  phase := h.phase.age hi hage rfl rfl rfl rfl hexits hcount

theorem WaitInv.publish (hrun : t.exit = .running) (retval : Int) :
    WaitInv (publish s i t retval) := by
  have hkin := h.kin t (mem_of_pos hi)
  have hcount : outstanding (s.tasks.set i { t with retval := retval, exit := .published retval })
      = outstanding s.tasks := by
    have hset := @outstanding_set i t { t with retval := retval, exit := .published retval } _ hi
    rw [hrun] at hset
    exact add_right_cancel hset
  refine @WaitInv.age s i t { t with retval := retval, exit := .published retval } h hi
    ⟨rfl, rfl, rfl, rfl, rfl, id, ?_⟩ _ _ _ (fun o ho => mem_cons_of_mem _ ho) ?_ ?_
    le_rfl h.data0 ⟨hkin.id_ne, hkin.fresh, ?_, ?_, ?_, ?_, hkin.reaped⟩
    (fun hs => by simp only [Few, hcount]; exact hs)
  · intro _ r n he
    cases he
  · intro o ho
    rcases mem_cons.mp ho with rfl | ho
    · exact .inr rfl
    · exact .inl ho
  · rw [map_cons, nodup_cons]
    refine ⟨fun hin => ?_, h.exits_once⟩
    obtain ⟨o, ho, heq⟩ := mem_map.mp hin
    exact hkin.alive hrun o ho heq
  · intro r hr
    cases hr
    simp
  · intro he
    cases he
  · simp only [hkin.stopped, hrun, ExitPc.hasStopped]
  · intro r n _ he
    cases he

theorem WaitInv.stop {retval : Int} (hpub : t.exit = .published retval) :
    WaitInv (stop s i t retval) := by
  have hkin := h.kin t (mem_of_pos hi)
  have hcount : outstanding (s.tasks.set i { t with stopped := true, exit := .stopped retval })
      = outstanding s.tasks := by
    have hset := @outstanding_set i t { t with stopped := true, exit := .stopped retval } _ hi
    rw [hpub] at hset
    exact add_right_cancel hset
  refine @WaitInv.age s i t { t with stopped := true, exit := .stopped retval } h hi
    ⟨rfl, rfl, rfl, rfl, rfl, fun _ => rfl, ?_⟩ _ _ _ (fun o ho => ho)
    (fun o ho => .inl ho) h.exits_once le_rfl h.data0
    ⟨hkin.id_ne, hkin.fresh, ?_, ?_, rfl, ?_, hkin.reaped⟩
    (fun hs => by simp only [Few, hcount]; exact hs)
  · intro _ r n he
    cases he
  · intro r hr
    cases hr
    exact hkin.exited retval (by rw [hpub]; rfl)
  · intro he
    cases he
  · intro r n _ he
    cases he

end

/-- The last step of `task_exit`, `n` being the number the increment gets:
a later one than every increment that was sampled. -/
theorem WaitInv.count_as (h : WaitInv s) (hi : s.tasks[i]? = some t) {retval : Int}
    (hstop : t.exit = .stopped retval) (n : Nat) {data0 total : Nat} (htotal : s.total ≤ total)
    (hdata0 : data0 = total % 0x100000000)
    (hn : t.own = true → s.sampled < n ∧ n ≤ total)
    (hcount : Few s → Few
      { s with
        tasks := s.tasks.set i { t with exit := .counted retval n }
        data0 := data0, total := total }) :
    WaitInv
      { s with
        tasks := s.tasks.set i { t with exit := .counted retval n }
        data0 := data0, total := total } := by
  have hkin := h.kin t (mem_of_pos hi)
  refine @WaitInv.age s i t { t with exit := .counted retval n } h hi
    ⟨rfl, rfl, rfl, rfl, rfl, id, ?_⟩ _ _ _ (fun o ho => ho) (fun o ho => .inl ho)
    h.exits_once htotal hdata0 ⟨hkin.id_ne, hkin.fresh, ?_, ?_, ?_, ?_, hkin.reaped⟩ hcount
  · intro hown r n' he hle
    cases he
    have hlate := (hn hown).1
    omega
  · intro r hr
    cases hr
    exact hkin.exited retval (by rw [hstop]; rfl)
  · intro he
    cases he
  · simp only [hkin.stopped, hstop, ExitPc.hasStopped]
  · intro r n' hown he
    cases he
    exact (hn hown).2

theorem WaitInv.count (h : WaitInv s) (hi : s.tasks[i]? = some t) {retval : Int}
    (hstop : t.exit = .stopped retval) : WaitInv (count s i t retval) := by
  have hle := h.sampled_le
  have hset : ∀ n, outstanding (s.tasks.set i { t with exit := .counted retval n })
      + (if t.own then 1 else 0) = outstanding s.tasks := by
    intro n
    have hset := @outstanding_set i t { t with exit := .counted retval n } _ hi
    rw [hstop] at hset
    simpa [ExitPc.hasCounted] using hset
  unfold Dancy.Tasks.count
  by_cases hown : t.own = true
  · -- one outstanding child less, one increment more
    have hdata0 := h.data0
    have hone := hset (s.total + 1)
    rw [if_pos hown] at hone
    rw [if_pos hown]
    refine h.count_as hi hstop (s.total + 1) (Nat.le_succ _) (by omega)
      (fun _ => ⟨by omega, by omega⟩) fun hfew => ?_
    simp only [Few] at hfew ⊢
    omega
  · have hzero := hset 0
    rw [if_neg hown, add_zero] at hzero
    rw [if_neg hown]
    refine h.count_as hi hstop 0 le_rfl h.data0 (fun ho => absurd ho hown)
      fun hfew => ?_
    simp only [Few, hzero]
    exact hfew

/-! ## Steps between two waits -/

/-- The parent moves on, the tasks and the logs being as before. -/
theorem WaitInv.turn (h : WaitInv s) {pc : ParentPc} {code : Option WaitCode} {data1 sampled : Nat}
    (hle : sampled ≤ s.total)
    (hphase : Phase { s with pc := pc, code := code, data1 := data1, sampled := sampled } pc) :
    WaitInv { s with pc := pc, code := code, data1 := data1, sampled := sampled } :=
  ⟨h.limit, h.room, h.nonempty, h.data0, hle, h.serials,
    fun u hu => ⟨(h.kin u hu).id_ne, (h.kin u hu).fresh, (h.kin u hu).exited, (h.kin u hu).alive,
      (h.kin u hu).stopped, (h.kin u hu).counted, (h.kin u hu).reaped⟩,
    h.exits_lt, h.exits_once, h.reports_exited, h.reports_once, hphase⟩

theorem WaitInv.call (h : WaitInv s) (w : Wait) : WaitInv { s with pc := .sample w } :=
  h.turn h.sampled_le trivial

theorem WaitInv.collect (h : WaitInv s) (hpc : s.pc = .idle) (hi : 0 < i)
    (hpos : s.tasks[i]? = some t) : WaitInv { s with tasks := s.tasks.eraseIdx i } := by
  have hlt := (List.getElem?_eq_some_iff.mp hpos).1
  have hsub : List.Sublist (s.tasks.eraseIdx i) s.tasks := eraseIdx_sublist _ _
  have hlen := length_eraseIdx_of_lt hlt
  have hroom := h.room
  refine ⟨h.limit, by simp only [hlen]; omega, by simp only [hlen]; omega, h.data0, h.sampled_le,
    h.serials.sublist (hsub.map _), fun u hu => ?_, h.exits_lt, h.exits_once, h.reports_exited,
    h.reports_once, ?_⟩
  · have hkin := h.kin u (hsub.subset hu)
    exact ⟨hkin.id_ne, hkin.fresh, hkin.exited, hkin.alive, hkin.stopped, hkin.counted,
      hkin.reaped⟩
  · simp only [hpc]
    trivial

theorem Scanned.grow (h : Scanned s w i) (hexit : u.exit = .running)
    (htasks : s'.tasks = s.tasks ++ [u]) (hsampled : s'.sampled = s.sampled)
    (hk : k ≤ i ∨ s.tasks.length ≤ i) : Scanned s' w k := by
  intro j v hj hv hp
  rw [htasks, getElem?_append] at hv
  rw [hsampled] at hp
  split at hv
  · exact h j v (by omega) hv hp
  rw [getElem?_singleton] at hv
  split at hv
  · cases hv
    obtain ⟨-, -, r, m, he, -⟩ := hp
    rw [hexit] at he
    cases he
  · cases hv

theorem Claimed.grow (h : Claimed s out) (hfresh : ∀ o ∈ s.exits, o.serial ≠ u.serial)
    (htasks : s'.tasks = s.tasks ++ [u]) (hexits : s'.exits = s.exits)
    (hreports : s'.reports = s.reports) : Claimed s' out := by
  refine ⟨by rw [hexits]; exact h.exited, by rw [hreports]; exact h.unreported,
    fun v hv hserial => ?_⟩
  rw [htasks, mem_append, mem_singleton] at hv
  rcases hv with hv | rfl
  · exact h.reaped v hv hserial
  · exact absurd hserial.symm (hfresh out h.exited)

theorem getElem?_grow (h : i < l.length) : (l ++ [u])[i]? = l[i]? :=
  getElem?_append_left h

theorem ReapedAt.grow (h : ReapedAt s i t) (htasks : s'.tasks = s.tasks ++ [u])
    (hreports : s'.reports = s.reports) : ReapedAt s' i t := by
  refine ⟨?_, h.reaped, h.stopped, by rw [hreports]; exact h.unreported⟩
  rw [htasks, getElem?_grow (List.getElem?_eq_some_iff.mp h.at_pos).1]
  exact h.at_pos

/-- A new task, which is not a child of a waiting parent, disturbs no wait. -/
theorem Phase.grow (h : Phase s pc) (hexit : u.exit = .running) (hown : pc ≠ .idle → u.own = false)
    (hfresh : ∀ o ∈ s.exits, o.serial ≠ u.serial) (htasks : s'.tasks = s.tasks ++ [u])
    (hsampled : s'.sampled = s.sampled) (htotal : s'.total = s.total)
    (hlimit : s'.taskStructLimit = s.taskStructLimit) (hdata1 : s'.data1 = s.data1)
    (hexits : s'.exits = s.exits) (hreports : s'.reports = s.reports) : Phase s' pc := by
  have hlen : s.tasks.length < s'.tasks.length := by simp [htasks]
  have hfew : pc ≠ .idle → Few s → Few s' := by
    intro hpc hf
    simpa [Few, outstanding, htasks, hsampled, htotal, hlimit, hown hpc] using hf
  have hstored : pc ≠ .idle → Stored s → Stored s' := fun hpc hs =>
    ⟨hfew hpc hs.few, by rw [hdata1, hsampled]; exact hs.data1⟩
  have hscan : ∀ {w i}, Scanned s w i → Scanned s' w i := fun hs =>
    hs.grow hexit htasks hsampled (.inl le_rfl)
  have hall : ∀ {w}, Scanned s w s.tasks.length → Scanned s' w s'.tasks.length := fun hs =>
    hs.grow hexit htasks hsampled (.inr le_rfl)
  have hat : ∀ {i : Nat} {P : Kin → Prop}, i < s.tasks.length →
      (∀ v, s.tasks[i]? = some v → P v) → ∀ v, s'.tasks[i]? = some v → P v := by
    intro i P hi hP v hv
    rw [htasks, getElem?_grow hi] at hv
    exact hP v hv
  cases pc with
  | idle | sample => trivial
  | store w v => exact ⟨hfew (by simp) h.1, by rw [hsampled]; exact h.2⟩
  | test w i ds | check w i ds =>
    exact ⟨lt_trans h.1 hlen, hstored (by simp) h.2.1, hscan h.2.2⟩
  | readStopped w i ds valid | tryDetach w i ds =>
    exact ⟨lt_trans h.1 hlen, hstored (by simp) h.2.1, hscan h.2.2.1, hat h.1 h.2.2.2⟩
  | readId w i =>
    obtain ⟨v, hv⟩ := h
    exact ⟨v, hv.grow htasks hreports⟩
  | readRetval w i serial id =>
    obtain ⟨v, hv, h1, h2⟩ := h
    exact ⟨v, hv.grow htasks hreports, h1, h2⟩
  | next w i ds out =>
    exact ⟨fun h0 => ⟨hstored (by simp) (h.1 h0).1, hscan (h.1 h0).2⟩,
      fun h0 => (h.2 h0).grow hfresh htasks hexits hreports⟩
  | decide w ds out =>
    exact ⟨fun h0 => ⟨hstored (by simp) (h.1 h0).1, hall (h.1 h0).2⟩,
      fun h0 => (h.2 h0).grow hfresh htasks hexits hreports⟩
  | blocked w => exact ⟨hstored (by simp) h.1, hall h.2⟩

theorem WaitInv.create (h : WaitInv s) {id idGroup : Nat} {own detached : Bool}
    (hid : id ≠ 0) (hroom : s.tasks.length < s.taskStructLimit)
    (hown : own = true → s.pc = .idle) :
    WaitInv
      { s with
        tasks := s.tasks ++ [⟨s.nextSerial, id, idGroup, own, 0, false, detached, .running⟩]
        nextSerial := s.nextSerial + 1 } := by
  have hlt : ∀ o ∈ s.exits, o.serial < s.nextSerial + 1 := fun o ho =>
    Nat.lt_succ_of_lt (h.exits_lt o ho)
  have hne : ∀ o ∈ s.exits, o.serial ≠ s.nextSerial := fun o ho =>
    ne_of_lt (h.exits_lt o ho)
  refine ⟨h.limit, by simp; omega, by simp, h.data0, h.sampled_le, ?_, fun u hu => ?_, hlt,
    h.exits_once, h.reports_exited, h.reports_once, ?_⟩
  · rw [map_append, nodup_append]
    refine ⟨h.serials, by simp, fun x hx y hy heq => ?_⟩
    obtain ⟨u, hu, rfl⟩ := mem_map.mp hx
    simp only [map_cons, map_nil, mem_singleton] at hy
    have hfresh := (h.kin u hu).fresh
    omega
  · rcases mem_append.mp hu with hu | hu
    · have hkin := h.kin u hu
      exact ⟨hkin.id_ne, Nat.lt_succ_of_lt hkin.fresh, hkin.exited, hkin.alive, hkin.stopped,
        hkin.counted, hkin.reaped⟩
    rw [mem_singleton] at hu
    subst hu
    refine ⟨hid, Nat.lt_succ_self _, fun r hr => ?_, fun _ => hne, rfl, fun r n _ he => ?_,
      fun o ho heq => absurd heq (hne o (h.reports_exited o ho))⟩
    · cases hr
    · cases he
  · refine h.phase.grow rfl (fun hpc => ?_) hne rfl rfl rfl rfl rfl rfl rfl
    rw [← Bool.not_eq_true]
    exact fun ho => hpc (hown ho)

/-! ## Steps of the parent -/

theorem Phase.atPc {pc pc' : ParentPc} (h : Phase s pc) : Phase { s with pc := pc' } pc := by
  have hstored : Stored s → Stored { s with pc := pc' } := fun hs => ⟨hs.few, hs.data1⟩
  have hstate : ∀ {w i out}, ScanState s w i out → ScanState { s with pc := pc' } w i out :=
    fun hs => ⟨fun h0 => ⟨hstored (hs.1 h0).1, (hs.1 h0).2⟩,
      fun h0 => ⟨(hs.2 h0).exited, (hs.2 h0).unreported, (hs.2 h0).reaped⟩⟩
  have hreaped : ∀ {i t}, ReapedAt s i t → ReapedAt { s with pc := pc' } i t :=
    fun hr => ⟨hr.at_pos, hr.reaped, hr.stopped, hr.unreported⟩
  cases pc with
  | idle | sample => trivial
  | store w v => exact h
  | test w i ds | check w i ds | readStopped w i ds valid | tryDetach w i ds =>
    exact ⟨h.1, hstored h.2.1, h.2.2⟩
  | readId w i =>
    obtain ⟨u, hu⟩ := h
    exact ⟨u, hreaped hu⟩
  | readRetval w i serial id =>
    obtain ⟨u, hu, h1, h2⟩ := h
    exact ⟨u, hreaped hu, h1, h2⟩
  | next w i ds out | decide w ds out => exact hstate h
  | blocked w => exact ⟨hstored h.1, h.2⟩

theorem WaitInv.move (h : WaitInv s) (hphase : Phase s pc) : WaitInv { s with pc := pc } :=
  h.turn h.sampled_le hphase.atPc

/-- The position `i` is done, its task not being pending by the sample. -/
theorem Scanned.next (h : Scanned s w i) (hstored : Stored s) (hi : s.tasks[i]? = some t)
    (hno : ¬ PendingBy w s.sampled t) : ScanState s w (i + 1) noOut := by
  refine ⟨fun _ => ⟨hstored, fun j u hj hu hp => ?_⟩, fun h0 => absurd rfl h0⟩
  rcases Nat.lt_succ_iff_lt_or_eq.mp hj with hlt | rfl
  · exact h j u hlt hu hp
  · obtain rfl := some.inj (hi.symm.trans hu)
    exact hno hp

section

variable (h : WaitInv s)
include h

theorem WaitInv.sample : WaitInv { s with pc := .store w s.data0, sampled := s.total } := by
  refine h.turn le_rfl ⟨?_, h.data0⟩
  have hroom := h.room
  have hout := outstanding_le s.tasks
  simp only [Few]
  omega

theorem WaitInv.store {v : Nat} (hphase : Phase s (.store w v)) {ds : Bool} :
    WaitInv { s with data1 := v, pc := .test w 0 ds } := by
  refine h.turn h.sampled_le ⟨h.nonempty, ⟨hphase.1, hphase.2⟩, ?_⟩
  intro j t hj
  cases hj

theorem WaitInv.detach (hi : s.tasks[i]? = some t) (hstop : t.stopped = true) (hown : t.own = true)
    (hfree : t.detached = false) :
    WaitInv
      { s with tasks := s.tasks.set i { t with detached := true }, pc := .readId w i } := by
  have hkin := h.kin t (mem_of_pos hi)
  have hunreported : ∀ o ∈ s.reports, o.serial ≠ t.serial := by
    intro o ho heq
    have hreaped := (hkin.reaped o ho heq).2
    rw [hfree] at hreaped
    cases hreaped
  refine ⟨h.limit, by simp only [length_set]; exact h.room,
    by simp only [length_set]; exact h.nonempty, h.data0, h.sampled_le, ?_, fun u hu => ?_,
    h.exits_lt, h.exits_once, h.reports_exited, h.reports_once, ?_⟩
  · have hserials := @serials_set i t { t with detached := true } _ hi rfl
    simp only [hserials]
    exact h.serials
  · rcases mem_or_eq_of_mem_set hu with hu | rfl
    · have hold := h.kin u hu
      exact ⟨hold.id_ne, hold.fresh, hold.exited, hold.alive, hold.stopped, hold.counted,
        hold.reaped⟩
    · exact ⟨hkin.id_ne, hkin.fresh, hkin.exited, hkin.alive, hkin.stopped, hkin.counted,
        fun _ _ _ => ⟨hown, rfl⟩⟩
  · exact ⟨{ t with detached := true }, getElem?_set_of hi, ⟨hown, rfl⟩, hstop, hunreported⟩

theorem WaitInv.report (hout : Claimed s out) {code : Option WaitCode} :
    WaitInv { s with pc := .idle, code := code, reports := out :: s.reports } := by
  refine ⟨h.limit, h.room, h.nonempty, h.data0, h.sampled_le, h.serials, fun u hu => ?_,
    h.exits_lt, h.exits_once, fun o ho => ?_, ?_, trivial⟩
  · have hold := h.kin u hu
    refine ⟨hold.id_ne, hold.fresh, hold.exited, hold.alive, hold.stopped, hold.counted,
      fun o ho heq => ?_⟩
    rcases mem_cons.mp ho with rfl | ho
    · exact hout.reaped u hu heq.symm
    · exact hold.reaped o ho heq
  · rcases mem_cons.mp ho with rfl | ho
    · exact hout.exited
    · exact h.reports_exited o ho
  · rw [map_cons, nodup_cons]
    refine ⟨fun hin => ?_, h.reports_once⟩
    obtain ⟨o, ho, heq⟩ := mem_map.mp hin
    exact hout.unreported o ho heq

theorem WaitInv.giveUp {code : Option WaitCode} : WaitInv { s with pc := .idle, code := code } :=
  h.turn h.sampled_le trivial

theorem ReapedAt.claimed (hr : ReapedAt s i t) : Claimed s ⟨t.serial, t.id, t.retval⟩ := by
  have hmem := mem_of_pos hr.at_pos
  have hkin := h.kin t hmem
  have hvalue : ∃ r, t.exit.value = some r := by
    have hstop := hr.stopped
    rw [hkin.stopped] at hstop
    cases he : t.exit with
    | running | published r => rw [he] at hstop; cases hstop
    | stopped r | counted r n => exact ⟨r, rfl⟩
  obtain ⟨r, hvalue⟩ := hvalue
  obtain ⟨hexit, hretval⟩ := hkin.exited r hvalue
  refine ⟨hretval ▸ hexit, hr.unreported, fun u hu hserial => ?_⟩
  rw [h.same_serial hu hmem hserial]
  exact hr.reaped

section

variable (hi : s.tasks[i]? = some t)
include hi

theorem WaitInv.test {ds : Bool} (hphase : Phase s (.test w i ds)) :
    WaitInv { s with pc := if t.own then .check w i ds else .next w i ds noOut } := by
  obtain ⟨hlt, hstored, hscan⟩ := hphase
  refine h.move ?_
  split
  · exact ⟨hlt, hstored, hscan⟩
  rename_i hown
  refine hscan.next hstored hi fun hp => hown ?_
  have hvalid := hp.1
  simp only [validCandidate, Bool.and_eq_true] at hvalid
  exact hvalid.1.1

theorem WaitInv.readStopped {ds valid : Bool} (hphase : Phase s (.readStopped w i ds valid)) :
    WaitInv
      { s with
        pc := if valid && t.stopped then .tryDetach w i ds
          else .next w i (ds || valid) noOut } := by
  obtain ⟨hlt, hstored, hscan, hcheck⟩ := hphase
  obtain rfl := hcheck t hi
  refine h.move ?_
  split
  · rename_i hboth
    refine ⟨hlt, hstored, hscan, fun u hu => ?_⟩
    obtain rfl := some.inj (hi.symm.trans hu)
    rw [Bool.and_eq_true] at hboth
    have hv := hboth.1
    simp only [validCandidate, Bool.and_eq_true] at hv
    exact ⟨hboth.2, hv.1.1⟩
  · rename_i hboth
    refine hscan.next hstored hi fun hp => hboth ?_
    obtain ⟨hv, -, r, n, he, -⟩ := hp
    rw [hv, (h.kin t (mem_of_pos hi)).stopped, he]
    rfl

end

theorem WaitInv.parent (env : Bool) : WaitInv (parentStep s env) := by
  have hphase := h.phase
  unfold parentStep
  cases hpc : s.pc with
  | idle => exact h
  | sample w => exact h.sample
  | store w v =>
    rw [hpc] at hphase
    exact h.store hphase
  | test w i ds =>
    rw [hpc] at hphase
    simp only [getElem?_eq_getElem hphase.1]
    exact h.test (getElem?_eq_getElem hphase.1) hphase
  | check w i ds =>
    rw [hpc] at hphase
    obtain ⟨hi, hstored, hscan⟩ := hphase
    simp only [getElem?_eq_getElem hi]
    refine h.move ⟨hi, hstored, hscan, fun t ht => ?_⟩
    rw [getElem?_eq_getElem hi] at ht
    cases ht
    rfl
  | readStopped w i ds valid =>
    rw [hpc] at hphase
    simp only [getElem?_eq_getElem hphase.1]
    exact h.readStopped (getElem?_eq_getElem hphase.1) hphase
  | tryDetach w i ds =>
    rw [hpc] at hphase
    obtain ⟨hi, hstored, hscan, hstop⟩ := hphase
    simp only [getElem?_eq_getElem hi] at hstop ⊢
    split
    · rename_i hdet
      refine h.move (hscan.next hstored (getElem?_eq_getElem hi) fun hp => ?_)
      rw [hp.2.1] at hdet
      cases hdet
    · rename_i hdet
      exact h.detach (getElem?_eq_getElem hi) (hstop _ rfl).1 (hstop _ rfl).2
        (by simpa using hdet)
  | readId w i =>
    rw [hpc] at hphase
    obtain ⟨t, hr⟩ := hphase
    simp only [hr.at_pos]
    exact h.move ⟨t, hr, rfl, rfl⟩
  | readRetval w i serial id =>
    rw [hpc] at hphase
    obtain ⟨t, hr, rfl, rfl⟩ := hphase
    simp only [hr.at_pos]
    refine h.move ⟨fun h0 => absurd h0 ?_, fun _ => ReapedAt.claimed h hr⟩
    exact (h.kin t (mem_of_pos hr.at_pos)).id_ne
  | next w i ds out =>
    rw [hpc] at hphase
    refine h.move ?_
    split
    · rename_i hmore
      obtain ⟨hstored, hscan⟩ := hphase.1 hmore.1
      exact ⟨hmore.2, hstored, hscan⟩
    · refine ⟨fun h0 => ⟨(hphase.1 h0).1, fun j t hj => ?_⟩, hphase.2⟩
      exact (hphase.1 h0).2 j t (by omega)
  | decide w ds out =>
    rw [hpc] at hphase
    simp only
    split
    · rename_i h0
      exact h.report (hphase.2 h0)
    split
    · exact h.giveUp
    · split
      · exact h.giveUp
      · rename_i h0 _ _
        exact h.move (hphase.1 (not_not.mp h0))
  | blocked w =>
    simp only
    split
    · exact h.move trivial
    · exact h

theorem WaitInv.step {e : WaitEvent} (hstep : WaitStep s e s') : WaitInv s' := by
  cases hstep with
  | create id idGroup own detached hid hroom hown => exact h.create hid hroom hown
  | collect i t hpc hi hpos => exact h.collect hpc hi hpos
  | call w hpc => exact h.call w
  | parent env => exact h.parent env
  | publish i t retval hpos hrun => exact h.publish hpos hrun retval
  | stop i t retval hpos hpub => exact h.stop hpos hpub
  | count i t retval hpos hstop => exact h.count hpos hstop

end

/-- The parent before its first wait: it has no children yet, and the
number of task structures is limited as `task_init` does it. -/
structure WaitStarted (s : WaitSys) : Prop where
  limit : s.taskStructLimit ≤ 131072
  room : s.tasks.length ≤ s.taskStructLimit
  nonempty : 0 < s.tasks.length
  pc : s.pc = .idle
  serials : (s.tasks.map (·.serial)).Nodup
  others : ∀ t ∈ s.tasks, t.own = false ∧ t.id ≠ 0 ∧ t.serial < s.nextSerial ∧
    t.exit = .running ∧ t.stopped = false
  data0 : s.data0 = 0
  total : s.total = 0
  sampled : s.sampled = 0
  exits : s.exits = []
  reports : s.reports = []

theorem WaitInv.initial (h : WaitStarted s) : WaitInv s where
  limit := h.limit
  room := h.room
  nonempty := h.nonempty
  data0 := by rw [h.data0, h.total]
  sampled_le := by rw [h.sampled]; omega
  serials := h.serials
  kin := fun t ht => by
    obtain ⟨hown, hid, hserial, hexit, hstop⟩ := h.others t ht
    refine ⟨hid, hserial, fun r hr => ?_, fun _ => by simp [h.exits], ?_, fun r n _ he => ?_,
      by simp [h.reports]⟩
    · rw [hexit] at hr
      cases hr
    · rw [hexit, hstop]
      rfl
    · rw [hexit] at he
      cases he
  exits_lt := by simp [h.exits]
  exits_once := by simp [h.exits]
  reports_exited := by simp [h.reports]
  reports_once := by simp [h.reports]
  phase := by rw [h.pc]; trivial

theorem WaitInv.not_pending (h : WaitInv s) (hpc : s.pc = .blocked w)
    (heq : s.data0 = s.data1) (ht : t ∈ s.tasks) : ¬ Pending w t := by
  rintro ⟨hvalid, hcounted, hdet⟩
  have hphase := h.phase
  rw [hpc] at hphase
  obtain ⟨⟨hfew, hdata1⟩, hscan⟩ := hphase
  have hdata0 := h.data0
  have hlimit := h.limit
  have hle := h.sampled_le
  -- fewer increments than the counter has values
  have hsame : s.total = s.sampled := by
    simp only [Few] at hfew
    omega
  cases he : t.exit with
  | running | published r | stopped r => rw [he] at hcounted; cases hcounted
  | counted r n =>
    have hown : t.own = true := by
      simp only [validCandidate, Bool.and_eq_true] at hvalid
      exact hvalid.1.1
    have hn := (h.kin t ht).counted r n hown he
    obtain ⟨i, hi, hget⟩ := mem_iff_getElem.mp ht
    refine hscan i t hi ?_ ⟨hvalid, hdet, r, n, he, by omega⟩
    rw [getElem?_eq_getElem hi, hget]

/-- **Waiting for descendants.** In every interleaving: the parent is
never blocked with equal counters while a child that fits the wait has
made its increment and is not reaped; no child is reported twice, each
report carries the child's own return value, and a reported child is a
detached child of the parent. -/
theorem wait_of_run (hstart : WaitStarted s) {es : List WaitEvent}
    (hrun : Run WaitStep s es s') :
    (∀ w, s'.pc = .blocked w → s'.data0 = s'.data1 → ∀ t ∈ s'.tasks, ¬ Pending w t) ∧
    (s'.reports.map (·.serial)).Nodup ∧
    (∀ o ∈ s'.reports, o ∈ s'.exits) ∧ (s'.exits.map (·.serial)).Nodup ∧
    ∀ o ∈ s'.reports, ∀ t ∈ s'.tasks, t.serial = o.serial → t.Reaped := by
  have h : WaitInv s' := hrun.invariant (fun _ _ _ hi hs => hi.step hs) (WaitInv.initial hstart)
  exact ⟨fun w hpc heq t ht => h.not_pending hpc heq ht, h.reports_once, h.reports_exited,
    h.exits_once, fun o ho t ht heq => (h.kin t ht).reaped o ho heq.symm⟩

/-- A parent with the first task only, which makes a child. -/
def noChildren : WaitSys :=
  ⟨[⟨0, 1, 1, false, 0, false, false, .running⟩], 16384, 0, 0, .idle, none, [], 1, 0, 0, []⟩

theorem parent_steps {es : List WaitEvent} (h : Run WaitStep s es s') (n : Nat) :
    ∃ es', Run WaitStep s es' ((fun s => parentStep s false)^[n] s') := by
  induction n with
  | zero => exact ⟨es, h⟩
  | succ n ih =>
    obtain ⟨es', hrun⟩ := ih
    rw [Function.iterate_succ_apply']
    exact ⟨_, hrun.snoc (.parent _ false)⟩

/-- The child exits with 7, and the wait that follows reports it. -/
theorem wait_of_run_oneChild : ∃ es s, Run WaitStep noChildren es s ∧ s.reports = [⟨1, 2, 7⟩] ∧
    s.exits = [⟨1, 2, 7⟩] ∧ (s.reports.map (·.serial)).Nodup := by
  have hstart : WaitStarted noChildren :=
    ⟨by decide, by decide, by decide, rfl, by decide, by decide, rfl, rfl, rfl, rfl, rfl⟩
  have h1 := WaitStep.create noChildren 2 1 true false (by decide) (by decide) fun _ => rfl
  obtain ⟨es, hrun⟩ := parent_steps (((((Run.single h1).snoc
    (WaitStep.publish _ 1 ⟨1, 2, 1, true, 0, false, false, .running⟩ 7 rfl rfl)).snoc
    (WaitStep.stop _ 1 ⟨1, 2, 1, true, 7, false, false, .published 7⟩ 7 rfl rfl rfl)).snoc
    (WaitStep.count _ 1 ⟨1, 2, 1, true, 7, true, false, .stopped 7⟩ 7 rfl rfl)).snoc
    (WaitStep.call _ ⟨0, 0, false⟩ rfl)) 12
  exact ⟨_, _, hrun, rfl, rfl, (wait_of_run hstart hrun).2.1⟩

end Dancy.Tasks
