import Mathlib.Data.Finset.Card
import Mathlib.Data.Nat.Bitwise

/-!
# select

`select` merges its three descriptor sets into one array for `poll` and
splits the answers again by their result bits. `file_poll` answers with
conditions nobody asked for: a descriptor that is not open is reported
`POLLNVAL` whatever its `events` were.
-/

namespace Dancy.Libc.Select

open List Function Option

/-! ## Descriptor sets -/

def fdSetsize : Nat := 1024

/-- The bytes of an `fd_set`. -/
abbrev FdSet := Nat → Nat

def fdZero : FdSet := fun _ => 0

def fdIsset (fd : Nat) (set : FdSet) : Bool :=
  decide (fd < fdSetsize) && (set (fd >>> 3) &&& 1 <<< (fd &&& 7) != 0)

def fdSet (fd : Nat) (set : FdSet) : FdSet :=
  if fd < fdSetsize then
    update set (fd >>> 3) (set (fd >>> 3) ||| 1 <<< (fd &&& 7))
  else set

def members (set : FdSet) : Finset Nat := (Finset.range fdSetsize).filter fun fd => fdIsset fd set

theorem and_bit (v k : Nat) : (v &&& 1 <<< k != 0) = v.testBit k := by
  rw [Nat.one_shiftLeft, Nat.and_two_pow]
  cases v.testBit k <;> simp

variable {fd : Nat} {set : FdSet} {sets : Sets} {k : SetKind} {fds : List PollFd}

theorem mem_members : fd ∈ members set ↔ fdIsset fd set = true := by
  simp only [members, Finset.mem_filter, Finset.mem_range, and_iff_right_iff_imp]
  intro h
  simp only [fdIsset, Bool.and_eq_true, decide_eq_true_eq] at h
  exact h.1

theorem fdIsset_fdSet (hfd : fd < fdSetsize) (set : FdSet) (j : Nat) :
    fdIsset j (fdSet fd set) = (decide (j = fd) || fdIsset j set) := by
  simp only [fdIsset, fdSet, if_pos hfd, and_bit]
  have heq : j = fd ↔ j >>> 3 = fd >>> 3 ∧ fd &&& 7 = j &&& 7 := by
    rw [Nat.shiftRight_eq_div_pow, Nat.shiftRight_eq_div_pow,
      show (7 : Nat) = 2 ^ 3 - 1 from rfl, Nat.and_two_pow_sub_one_eq_mod,
      Nat.and_two_pow_sub_one_eq_mod]
    omega
  by_cases hbyte : j >>> 3 = fd >>> 3
  · rw [hbyte, update_self, Nat.testBit_or, Nat.one_shiftLeft, Nat.testBit_two_pow]
    by_cases hbit : fd &&& 7 = j &&& 7
    · simp [heq.mpr ⟨hbyte, hbit⟩, hfd]
    · simp [heq, hbyte, hbit]
  · simp [heq, hbyte]

theorem members_fdSet (hfd : fd < fdSetsize) (set : FdSet) :
    members (fdSet fd set) = insert fd (members set) := by
  ext j
  simp [mem_members, fdIsset_fdSet hfd]

@[simp] theorem members_fdZero : members fdZero = ∅ := by
  simp [members, fdIsset, fdZero]

/-! ## The three sets -/

/-- The sets that `select` gets. -/
inductive SetKind
  | read
  | write
  | error
  deriving DecidableEq

/-- What `select` asks `poll` for a descriptor of the set. -/
def SetKind.events : SetKind → Nat
  | .read => 0x0001 ||| 0x0040
  | .write => 0x0004 ||| 0x0100
  | .error => 0x0008

/-- The result bits that put a descriptor into the set. -/
def SetKind.results : SetKind → Nat
  | .read => 0x0001 ||| 0x0040
  | .write => 0x0004 ||| 0x0100
  | .error => 0x0008 ||| 0x0010 ||| 0x0020

/-- The pointers `readfds`, `writefds` and `errorfds`; `none` is null. -/
abbrev Sets := SetKind → Option FdSet

def count : Option FdSet → Nat
  | none => 0
  | some set => (members set).card

def total (sets : Sets) : Nat :=
  count (sets .read) + count (sets .write) + count (sets .error)

/-- `struct pollfd`. -/
structure PollFd where
  (fd events revents : Nat)

/-- An answer has one of the result bits of a set. -/
def PollFd.Ready (f : PollFd) (k : SetKind) : Prop := f.revents &&& k.results ≠ 0

instance (f : PollFd) (k : SetKind) : Decidable (f.Ready k) :=
  inferInstanceAs (Decidable (_ ≠ _))

def askedEvents (sets : Sets) (k : SetKind) (i : Nat) : Nat :=
  match sets k with
  | none => 0
  | some set => if fdIsset i set then k.events else 0

/-- The first loop of `select`. -/
def pollFds (nfds : Nat) (sets : Sets) : List PollFd :=
  ((range nfds).map fun i =>
    ⟨i, askedEvents sets .read i ||| askedEvents sets .write i ||| askedEvents sets .error i,
      0⟩).filter fun f => f.events ≠ 0

/-- A descriptor, by what its node's `n_poll` makes of `events` and `revents`. -/
inductive Descriptor
  | closed
  | opened (nPoll : Nat → Nat → Nat)

/-- What one round of `file_poll` finds. -/
structure Round where
  table : Nat → Descriptor
  (interrupted expired : Bool)

inductive Errno
  | EINVAL
  | EINTR

def pollOne (table : Nat → Descriptor) (f : PollFd) : PollFd :=
  match table f.fd with
  | .closed => { f with revents := 0x0020 }
  | .opened nPoll => { f with revents := nPoll f.events 0x0020 }

/-- `file_poll`; `none` while no round has ended it. -/
def filePoll (fds : List PollFd) (timeout : Int) : List Round → Option (Except Errno (List PollFd))
  | [] => none
  | now :: rounds =>
    let fds' := fds.map (pollOne now.table)
    if (fds'.any fun f => f.revents ≠ 0) ∨ timeout = 0 then some (.ok fds')
    else if now.interrupted then some (.error .EINTR)
    else if timeout < 0 ∨ ¬now.expired then filePoll fds' timeout rounds
    else some (.ok fds')

/-! ## select -/

structure Timeval where
  (sec usec : Int)

/-- `timeout_ms`; `none` is `EINVAL`. -/
def timeoutMs : Option Timeval → Option Int
  | none => some (-1)
  | some t =>
    if t.sec < 0 then none
    else if t.usec < 0 ∨ t.usec > 999999 then none
    else
      let ms := if t.sec < 0x7FFFFFFF then
        t.sec * 1000 + t.usec / 1000 + (if t.usec % 1000 ≠ 0 then 1 else 0) else -1
      some (if 0 ≤ ms ∧ ms ≤ 0x7FFFFFFF then ms else -1)

/-- The three calls of `FD_ZERO`. -/
def cleared (sets : Sets) : Sets := fun k => (sets k).map fun _ => fdZero

/-- The last loop of `select`: `none` is a store through a null pointer. -/
def split : List (SetKind × PollFd) → Sets → Nat → Option (Sets × Nat)
  | [], sets, r => some (sets, r)
  | (k, f) :: rest, sets, r =>
    if f.Ready k then
      match sets k with
      | none => none
      | some set => split rest (update sets k (some (fdSet f.fd set))) (r + 1)
    else split rest sets r

def tests (fds : List PollFd) : List (SetKind × PollFd) :=
  fds.flatMap fun f => [(.read, f), (.write, f), (.error, f)]

inductive Outcome
  | fault
  | failed (e : Errno)
  | done (r : Nat) (sets : Sets)

/-- The answers that `select` goes through. -/
def answers (nfds : Nat) (sets : Sets) (timeout : Int) (rounds : List Round) :
    Option (Except Errno (List PollFd)) :=
  if pollFds nfds sets = [] then some (.ok []) else filePoll (pollFds nfds sets) timeout rounds

def select (nfds : Int) (sets : Sets) (timeout : Option Timeval) (rounds : List Round) :
    Option Outcome :=
  if nfds < 0 ∨ nfds > fdSetsize then some (.failed .EINVAL)
  else match timeoutMs timeout with
    | none => some (.failed .EINVAL)
    | some ms => match answers nfds.toNat sets ms rounds with
      | none => none
      | some (.error e) => some (.failed e)
      | some (.ok fds) =>
        match split (tests fds) (cleared sets) 0 with
        | none => some .fault
        | some (sets', r) => some (.done r sets')

/-! ## What the loops do -/

theorem total_fdSet (hset : sets k = some set) (hfd : fd < fdSetsize) (hnew : fd ∉ members set) :
    total (update sets k (some (fdSet fd set))) = total sets + 1 := by
  have hcard : (members (fdSet fd set)).card = (members set).card + 1 := by
    rw [members_fdSet hfd, Finset.card_insert_of_notMem hnew]
  cases k <;> simp [total, hset, count, hcard] <;> omega

theorem cleared_eq_none : cleared sets k = none ↔ sets k = none :=
  map_eq_none_iff

theorem cleared_of_some (h : sets k = some set) :
    cleared sets k = some fdZero := by
  simp [cleared, h]

/-- The descriptors that the tests put into a set. -/
def Marked (l : List (SetKind × PollFd)) (k : SetKind) (fd : Nat) : Prop :=
  ∃ f, (k, f) ∈ l ∧ f.Ready k ∧ f.fd = fd

/-- What `split` has done at its end. -/
def Split (l : List (SetKind × PollFd)) (sets : Sets) (r : Nat) : Option (Sets × Nat) → Prop
  | none => ∃ p ∈ l, p.2.Ready p.1 ∧ sets p.1 = none
  | some (out, r') =>
    (∀ p ∈ l, p.2.Ready p.1 → sets p.1 ≠ none) ∧ (∀ k, out k = none ↔ sets k = none) ∧
    (∀ k set set', sets k = some set → out k = some set' →
      ∀ fd, fd ∈ members set' ↔ fd ∈ members set ∨ Marked l k fd) ∧
    r' + total sets = r + total out

theorem split_spec {l : List (SetKind × PollFd)} : ∀ {sets : Sets} {r : Nat},
    (∀ p ∈ l, p.2.fd < fdSetsize) →
    (∀ p ∈ l, ∀ set, sets p.1 = some set → p.2.fd ∉ members set) →
    l.Pairwise (fun p q => p.1 = q.1 → p.2.fd ≠ q.2.fd) → Split l sets r (split l sets r) := by
  induction l with
  | nil =>
    intro sets r _ _ _
    refine ⟨fun _ hp => (nomatch hp), fun _ => Iff.rfl, fun k set set' hs hs' fd => ?_, rfl⟩
    rw [hs] at hs'
    simp [some.inj hs', Marked]
  | cons p l ih =>
    intro sets r hlt hnew hdis
    obtain ⟨k, f⟩ := p
    rw [pairwise_cons] at hdis
    rw [forall_mem_cons] at hlt hnew
    unfold split
    by_cases hready : f.Ready k
    · rw [if_pos hready]
      cases hset : sets k with
      | none => exact ⟨_, mem_cons_self, hready, hset⟩
      | some set =>
        have hnull : ∀ j, update sets k (some (fdSet f.fd set)) j = none ↔
            sets j = none := by
          intro j
          by_cases hj : j = k
          · simp [hj, hset]
          · rw [update_of_ne hj]
        have hstill : ∀ q ∈ l, ∀ s, update sets k (some (fdSet f.fd set)) q.1 = some s →
            q.2.fd ∉ members s := by
          intro q hq s hs
          by_cases hk : q.1 = k
          · rw [hk, update_self, some.injEq] at hs
            rw [← hs, members_fdSet hlt.1, Finset.mem_insert]
            exact fun h => h.elim (fun he => hdis.1 q hq hk.symm he.symm)
              (hnew.2 q hq set (hk ▸ hset))
          · rw [update_of_ne hk] at hs
            exact hnew.2 q hq s hs
        have hih := ih (r := r + 1) hlt.2 hstill hdis.2
        show Split _ sets r (split l (update sets k (some (fdSet f.fd set))) (r + 1))
        revert hih
        cases split l (update sets k (some (fdSet f.fd set))) (r + 1) with
        | none =>
          rintro ⟨q, hq, hr, hn⟩
          exact ⟨q, mem_cons_of_mem _ hq, hr, (hnull _).mp hn⟩
        | some result =>
          rintro ⟨h1, h2, h3, h4⟩
          rw [total_fdSet hset hlt.1 (hnew.1 set hset)] at h4
          refine ⟨?_, fun j => (h2 j).trans (hnull j), fun j s s' hs hs' fd => ?_, by omega⟩
          · rw [forall_mem_cons]
            exact ⟨fun _ => by simp [hset], fun q hq hr hn => h1 q hq hr ((hnull _).mpr hn)⟩
          by_cases hj : j = k
          · subst hj
            cases some.inj (hset.symm.trans hs)
            rw [h3 j _ s' (update_self ..) hs', members_fdSet hlt.1, Finset.mem_insert]
            simp only [Marked, mem_cons, Prod.mk.injEq, true_and]
            grind
          · rw [h3 j s s' (by rw [update_of_ne hj, hs]) hs' fd]
            simp [Marked, hj]
    · rw [if_neg hready]
      have hih := ih (r := r) hlt.2 hnew.2 hdis.2
      revert hih
      cases split l sets r with
      | none => exact fun ⟨q, hq, h⟩ => ⟨q, mem_cons_of_mem _ hq, h⟩
      | some result =>
        rintro ⟨h1, h2, h3, h4⟩
        refine ⟨forall_mem_cons.mpr ⟨fun h => absurd h hready, h1⟩, h2,
          fun j s s' hs hs' fd => ?_, h4⟩
        rw [h3 j s s' hs hs']
        simp only [Marked, mem_cons, Prod.mk.injEq]
        grind

theorem filePoll_fds {timeout : Int} : ∀ {rounds : List Round} {fds fds' : List PollFd},
    filePoll fds timeout rounds = some (.ok fds') →
    fds'.map PollFd.fd = fds.map PollFd.fd := by
  intro rounds
  have hone : ∀ table (fds : List PollFd), (fds.map (pollOne table)).map PollFd.fd = fds.map PollFd.fd := by
    intro table fds
    rw [List.map_map]
    refine map_congr_left fun f _ => ?_
    simp only [comp_apply, pollOne]
    split <;> rfl
  induction rounds with
  | nil => intro fds fds' h; cases h
  | cons now rounds ih =>
    intro fds fds' h
    simp only [filePoll] at h
    split at h
    · cases h
      exact hone _ _
    split at h
    · cases h
    · split at h
      · rw [ih h, hone]
      · cases h
        exact hone _ _

theorem answers_fds {nfds : Nat} {ms : Int} {rounds : List Round} (hn : nfds ≤ fdSetsize)
    (h : answers nfds sets ms rounds = some (.ok fds)) :
    (fds.map PollFd.fd).Nodup ∧ ∀ f ∈ fds, f.fd < fdSetsize := by
  have hfds : fds.map PollFd.fd = (pollFds nfds sets).map PollFd.fd := by
    unfold answers at h
    split at h
    · rename_i hnil
      cases h
      rw [hnil]
    · exact filePoll_fds h
  have hsub : (fds.map PollFd.fd).Sublist (range nfds) := by
    rw [hfds]
    refine (filter_sublist.map _).trans ?_
    simp [comp_def]
  refine ⟨hsub.nodup nodup_range, fun f hf => ?_⟩
  have := mem_range.mp (hsub.subset (mem_map_of_mem hf))
  omega

/-! ## What select promises -/

/-- What `poll` reported to a `select` that got so far. -/
def reported (nfds : Nat) (sets : Sets) (timeout : Option Timeval) (rounds : List Round) :
    List PollFd :=
  match (timeoutMs timeout).bind fun ms => answers nfds sets ms rounds with
  | some (.ok fds) => fds
  | _ => []

/-- No null pointer is written through, and a successful `select` leaves in
each set the descriptors of its input that were reported ready for it. -/
def Promised (sets : Sets) (fds : List PollFd) : Outcome → Prop
  | .fault => False
  | .failed _ => True
  | .done r out =>
    (∀ k, out k = none ↔ sets k = none) ∧
    (∀ k set set', sets k = some set → out k = some set' →
      members set' ⊆ members set ∧ ∀ fd, fd ∈ members set' ↔
        fd ∈ members set ∧ ∃ f ∈ fds, f.fd = fd ∧ f.Ready k) ∧
    r = total out

/-- `poll` reported nothing that its caller had not asked for. -/
def OnlyAsked (sets : Sets) (fds : List PollFd) : Prop :=
  ∀ f ∈ fds, ∀ k, f.Ready k → ∃ set, sets k = some set ∧ f.fd ∈ members set

theorem mem_tests {f : PollFd} :
    (k, f) ∈ tests fds ↔ f ∈ fds := by
  simp only [tests, mem_flatMap, mem_cons, Prod.mk.injEq, not_mem_nil]
  cases k <;> simp

theorem tests_pairwise (h : (fds.map PollFd.fd).Nodup) :
    (tests fds).Pairwise fun p q => p.1 = q.1 → p.2.fd ≠ q.2.fd := by
  unfold tests
  rw [pairwise_flatMap]
  refine ⟨fun f _ => by simp, (pairwise_map.mp h).imp fun hne p hp q hq _ => ?_⟩
  simp only [mem_cons, not_mem_nil, or_false] at hp hq
  rcases hp with rfl | rfl | rfl <;> rcases hq with rfl | rfl | rfl <;> exact hne

/-- `select` reports the descriptors that are ready, in the sets that were given, just when
`poll` answers only what it was asked. -/
theorem select_iff {nfds : Nat} {timeout : Option Timeval} {rounds : List Round}
    {outcome : Outcome} (hn : nfds ≤ fdSetsize)
    (h : select nfds sets timeout rounds = some outcome) :
    Promised sets (reported nfds sets timeout rounds) outcome ↔
      OnlyAsked sets (reported nfds sets timeout rounds) := by
  have hnone : OnlyAsked sets [] := fun _ hf => (nomatch hf)
  rw [select, if_neg (by omega), Int.toNat_natCast] at h
  unfold reported
  cases hms : timeoutMs timeout with
  | none =>
    rw [hms] at h
    cases h
    exact iff_of_true trivial hnone
  | some ms =>
    simp only [hms, bind_some] at h ⊢
    cases hans : answers nfds sets ms rounds with
    | none => simp [hans] at h
    | some answer =>
      rw [hans] at h
      cases answer with
      | error e =>
        cases h
        exact iff_of_true trivial hnone
      | ok fds =>
        obtain ⟨hnd, hlt⟩ := answers_fds hn hans
        have hspec := @split_spec (tests fds) (cleared sets) 0
          (fun p hp => hlt p.2 (mem_tests.mp hp))
          (fun p _ set hs => by
            obtain ⟨_, _, rfl⟩ := map_eq_some_iff.mp hs
            simp) (tests_pairwise hnd)
        simp only at h
        cases hsplit : split (tests fds) (cleared sets) 0 with
        | none =>
          rw [hsplit] at h hspec
          cases h
          obtain ⟨⟨k, f⟩, hp, hready, hnull⟩ := hspec
          refine iff_of_false id fun hask => ?_
          obtain ⟨set, hs, _⟩ := hask f (mem_tests.mp hp) k hready
          exact nomatch hs.symm.trans (cleared_eq_none.mp hnull)
        | some result =>
          rw [hsplit] at h hspec
          cases h
          obtain ⟨h1, h2, h3, h4⟩ := hspec
          have hzero : total (cleared sets) = 0 := by
            have hcount : ∀ o : Option FdSet, count (o.map fun _ => fdZero) = 0 := by
              intro o
              cases o <;> simp [count]
            simp only [total, cleared, hcount]
          have hmem : ∀ k set set', sets k = some set → result.1 k = some set' → ∀ fd,
              fd ∈ members set' ↔ ∃ f ∈ fds, f.fd = fd ∧ f.Ready k := by
            intro k set set' hs hs' fd
            rw [h3 k fdZero set' (cleared_of_some hs) hs', members_fdZero]
            simp only [Finset.notMem_empty, false_or, Marked, mem_tests]
            exact exists_congr fun f => by rw [and_comm (a := f.Ready k)]
          constructor
          · rintro ⟨_, hkept, _⟩ f hf k hready
            obtain ⟨set, hs⟩ := ne_none_iff_exists'.mp fun hs =>
              h1 (k, f) (mem_tests.mpr hf) hready (cleared_eq_none.mpr hs)
            obtain ⟨set', hs'⟩ := ne_none_iff_exists'.mp fun hs' =>
              nomatch hs.symm.trans (cleared_eq_none.mp ((h2 k).mp hs'))
            exact ⟨set, hs, (hkept k set set' hs hs').1 ((hmem k set set' hs hs' _).mpr
              ⟨f, hf, rfl, hready⟩)⟩
          · intro hask
            refine ⟨fun k => (h2 k).trans cleared_eq_none, fun k set set' hs hs' => ?_, by omega⟩
            have hall := hmem k set set' hs hs'
            have hsub : members set' ⊆ members set := by
              intro fd hfd
              obtain ⟨f, hf, rfl, hready⟩ := (hall fd).mp hfd
              obtain ⟨set₀, hs₀, hin⟩ := hask f hf k hready
              cases hs.symm.trans hs₀
              exact hin
            exact ⟨hsub, fun fd => ⟨fun hfd => ⟨hsub hfd, (hall fd).mp hfd⟩,
              fun hfd => (hall fd).mpr hfd.2⟩⟩

/-- Descriptor 3 in `readfds` alone. -/
def readThree : Sets
  | .read => some (fdSet 3 fdZero)
  | _ => none

/-- A round in which the first `n` descriptors are open and readable. -/
def readableBelow (n : Nat) : Round :=
  ⟨fun fd => if fd < n then .opened fun events _ => events &&& 0x41 else .closed, false, false⟩

theorem select_iff_readable :
    Promised readThree (reported 4 readThree none [readableBelow 4])
      (.done 1 (update (cleared readThree) .read
        (some (fdSet 3 fdZero)))) ↔
    OnlyAsked readThree (reported 4 readThree none [readableBelow 4]) := by
  have h : select ((4 : Nat) : Int) readThree none [readableBelow 4] =
      some (.done 1 (update (cleared readThree) .read
        (some (fdSet 3 fdZero)))) := by rfl
  exact select_iff (by decide) h

/-- With descriptor 3 closed, `POLLNVAL` goes through the null `errorfds`. -/
theorem select_closed : ¬ ∀ outcome, select 4 readThree none [readableBelow 3] = some outcome →
    Promised readThree (reported 4 readThree none [readableBelow 3]) outcome :=
  fun h => h .fault rfl

end Dancy.Libc.Select
