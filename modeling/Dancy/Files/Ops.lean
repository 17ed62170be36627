import Dancy.Files.Table
import Dancy.Lib.Run

/-!
# The operations on file descriptors

For each operation: the invariant is kept, a failing call leaves all
descriptors and entries as they were, and a new descriptor is the lowest
free one. A failing call undoes what it has done so far; `Started` says
what there is to undo.
-/

namespace Dancy.Files

open List Function Option Dancy.Lib

variable {s s' : FileState} {extra : List Nat} {t d i : Nat} {v : Slot}

theorem firstFree_some {free : Nat → Bool} {r : Nat} :
    ∀ {count i : Nat}, firstFree free count i = some r →
      i ≤ r ∧ r < i + count ∧ free r = true ∧ ∀ j, i ≤ j → j < r → free j = false := by
  intro count
  induction count with
  | zero =>
    intro i h
    cases h
  | succ count ih =>
    intro i h
    rw [firstFree] at h
    split at h
    · rename_i hfree
      obtain rfl : i = r := some.inj h
      exact ⟨le_rfl, by omega, hfree, fun j h1 h2 => by omega⟩
    rename_i hno
    obtain ⟨h1, h2, h3, h4⟩ := ih h
    refine ⟨by omega, by omega, h3, fun j hj1 hj2 => ?_⟩
    rcases eq_or_lt_of_le hj1 with rfl | hlt
    · simpa using hno
    · exact h4 j hlt hj2

theorem firstFree_none {free : Nat → Bool} :
    ∀ {count i : Nat}, firstFree free count i = none →
      ∀ j, i ≤ j → j < i + count → free j = false := by
  intro count
  induction count with
  | zero =>
    omega
  | succ count ih =>
    intro i h j h1 h2
    rw [firstFree] at h
    split at h
    · cases h
    · rename_i hno
      rcases eq_or_lt_of_le h1 with rfl | hlt
      · simpa using hno
      · exact ih h j hlt (by omega)

/-- `d` is the lowest free descriptor from `low` on. -/
structure LowestFree (table : Nat → Option Slot) (low d : Nat) : Prop where
  low_le : low ≤ d
  lt : d < taskFdStaticCount
  free : table d = none
  used : ∀ j, low ≤ j → j < d → table j ≠ none

/-- The descriptors and the entries are those of before. -/
structure SameTables (s s' : FileState) : Prop where
  entries : s'.fileTable = s.fileTable
  tables : ∀ t, (s'.fd t).table = (s.fd t).table
  live : s'.live = s.live

theorem SameTables.refl (s : FileState) : SameTables s s := ⟨rfl, fun _ => rfl, rfl⟩

/-! ## Parts of the operations -/

theorem allocFileDescriptor_none (h : (allocFileDescriptor s t).1 = none) :
    (allocFileDescriptor s t).2 = s := by
  unfold allocFileDescriptor at h ⊢
  simp only at h ⊢
  split
  · rfl
  rename_i hn
  simp only [hn] at h
  split
  · rename_i hlt
    rw [if_pos hlt] at h
    cases h
  · rfl

theorem allocFileDescriptor_some (h : FileInv s extra) (ht : t ∈ s.live)
    (hd : (allocFileDescriptor s t).1 = some d) :
    LowestFree (s.fd t).table 0 d ∧ FileInv (allocFileDescriptor s t).2 extra ∧
      SameTables s (allocFileDescriptor s t).2 ∧
      d < ((allocFileDescriptor s t).2.fd t).state := by
  obtain ⟨hmax, habove⟩ := h.within t ht
  unfold allocFileDescriptor at hd ⊢
  simp only at hd ⊢
  split
  · rename_i r hr
    simp only [hr] at hd
    obtain rfl : r = d := some.inj hd
    obtain ⟨h1, h2, h3, h4⟩ := firstFree_some hr
    refine ⟨⟨Nat.zero_le _, by omega, by simpa using h3, fun j hj1 hj2 hno => ?_⟩, h,
      .refl s, by simpa using h2⟩
    have hfalse := h4 j hj1 hj2
    rw [hno] at hfalse
    cases hfalse
  · rename_i hn
    simp only [hn] at hd
    split
    · rename_i hlt
      rw [if_pos hlt] at hd
      obtain rfl : (s.fd t).state = d := some.inj hd
      refine ⟨⟨Nat.zero_le _, hlt, habove _ le_rfl, fun j hj1 hj2 hno => ?_⟩,
        h.setState (Nat.le_succ _) hlt, ⟨rfl, fun t' => ?_, rfl⟩, ?_⟩
      · have hfalse := firstFree_none hn j hj1 (by omega)
        rw [hno] at hfalse
        cases hfalse
      · unfold FileState.setFd
        by_cases htt : t' = t
        · subst htt
          simp
        · simp [htt]
      · simp [FileState.setFd]
    · rename_i hge
      rw [if_neg hge] at hd
      cases hd

theorem allocFileEntry_some (h : FileInv s extra) (hi : (allocFileEntry s).1 = some i) :
    s.fileTable i = freeEntry ∧ ((allocFileEntry s).2.fileTable i).node = none ∧
      (∀ flags, (allocFileEntry s).2.startEntry i flags =
        s.setEntry i ⟨true, 1, flags, 0, none⟩) ∧ i < fileTableCount := by
  unfold allocFileEntry at hi ⊢
  simp only at hi ⊢
  split
  · rename_i r hr
    simp only [hr] at hi
    obtain rfl : r = i := some.inj hi
    have hfound : firstFree (fun i => !(s.fileTable i).lock) fileTableCount 0 = some r := by
      cases hone : firstFree (fun i => !(s.fileTable i).lock) fileTableCount 0 with
      | none =>
        rw [hone] at hr
        cases hr
      | some r' =>
        rw [hone] at hr
        exact hr
    obtain ⟨-, hlt, hunlocked, -⟩ := firstFree_some hfound
    have hfree := h.unlocked (by simpa using hunlocked)
    refine ⟨hfree, ?_, fun flags => ?_, by omega⟩
    · simp [FileState.setEntry, hfree, freeEntry]
    · simp [FileState.startEntry, FileState.setEntry, hfree, freeEntry]
  · rename_i hn
    simp only [hn] at hi
    cases hi

theorem allocFileEntry_none (h : (allocFileEntry s).1 = none) : (allocFileEntry s).2 = s := by
  unfold allocFileEntry at h ⊢
  simp only at h ⊢
  split
  · rename_i hr
    simp only [hr] at h
    cases h
  · rfl

@[simp] theorem fileDecrementCount_fd (s : FileState) (i : Nat) :
    (fileDecrementCount s i).fd = s.fd := by
  unfold fileDecrementCount
  simp only
  split
  · split <;> rfl
  · rfl

@[simp] theorem fileDecrementCount_live (s : FileState) (i : Nat) :
    (fileDecrementCount s i).live = s.live := by
  unfold fileDecrementCount
  simp only
  split
  · split <;> rfl
  · rfl

theorem fileDecrementCount_one (h : (s.fileTable i).count = 1) :
    (fileDecrementCount s i).fileTable = update s.fileTable i freeEntry := by
  unfold fileDecrementCount countDown
  simp only [h, Nat.zero_lt_one, if_true]
  split <;> rfl

theorem slot_some {fd : Int} (h : s.slot t fd = some v) : (s.fd t).table fd.toNat = some v := by
  unfold FileState.slot at h
  split at h
  · exact h
  · cases h

theorem setSlot_table (s : FileState) (t d : Nat) (v : Option Slot) :
    ((s.setSlot t d v).fd t).table = update (s.fd t).table d v := by
  simp [FileState.setSlot, FileState.setFd]

theorem fileDecrementCount_setSlot (s : FileState) (t d i : Nat) (v : Option Slot) :
    fileDecrementCount (s.setSlot t d v) i = (fileDecrementCount s i).setSlot t d v := by
  have hsame : (s.setSlot t d v).fileTable = s.fileTable := rfl
  unfold fileDecrementCount
  simp only [hsame]
  split
  · cases (s.fileTable i).node <;> rfl
  · rfl

theorem FileInv.close (h : FileInv s extra) (ht : t ∈ s.live) (fd : Int) :
    FileInv (fileClose s t fd).2 extra := by
  unfold fileClose
  split
  · rename_i v hv
    have hdetach := (h.detach ht (slot_some hv)).decrement
    rw [fileDecrementCount_setSlot] at hdetach
    exact hdetach
  · exact h

theorem fileClose_live (s : FileState) (t : Nat) (fd : Int) :
    (fileClose s t fd).2.live = s.live := by
  unfold fileClose
  split
  · exact fileDecrementCount_live s _
  · rfl

theorem fileClose_fd (s : FileState) (t : Nat) (fd : Int) :
    ((fileClose s t fd).2.fd t).state = (s.fd t).state ∧
      (∀ d, d ≠ fd.toNat → ((fileClose s t fd).2.fd t).table d = (s.fd t).table d) ∧
      (∀ d, (s.fd t).table d = none → ((fileClose s t fd).2.fd t).table d = none) := by
  unfold fileClose
  split
  · simp only [FileState.setSlot, FileState.setFd, fileDecrementCount_fd, update_self]
    refine ⟨trivial, fun d hd => update_of_ne hd .., fun d hd => ?_⟩
    by_cases heq : d = fd.toNat
    · rw [heq, update_self]
    · rwa [update_of_ne heq]
  · exact ⟨rfl, fun _ _ => rfl, fun _ h => h⟩

theorem fileClose_free (h : FileInv s extra) (ht : t ∈ s.live) (d : Nat) :
    ((fileClose s t d).2.fd t).table d = none := by
  unfold fileClose
  split
  · simp [FileState.setSlot, FileState.setFd]
  rename_i hnone
  by_contra hne
  obtain ⟨v, hv⟩ := ne_none_iff_exists'.mp hne
  have hlt := h.lt_state ht hv
  unfold FileState.slot at hnone
  rw [if_pos ⟨Int.natCast_nonneg d, by omega⟩, Int.toNat_natCast] at hnone
  exact hne hnone

theorem fileClose_setSlot (hd : d < (s.fd t).state) (hfree : (s.fd t).table d = none) :
    (fileClose (s.setSlot t d (some v)) t d).2 = fileDecrementCount s v.fte := by
  have hslot : (s.setSlot t d (some v)).slot t d = some v := by
    unfold FileState.slot
    rw [setSlot_table, if_pos ⟨Int.natCast_nonneg d, by
      simpa [FileState.setSlot, FileState.setFd] using hd⟩, Int.toNat_natCast,
      update_self]
  have htwice : (s.setSlot t d (some v)).setSlot t d none = s := by
    unfold FileState.setSlot FileState.setFd
    simp [← hfree]
  unfold fileClose
  rw [hslot]
  simp only [Int.toNat_natCast]
  rw [← fileDecrementCount_setSlot, htwice]

/-! ## Undoing -/

/-- Since `s0` only the entries in `is` were started. -/
structure Started (s0 s : FileState) (is : List Nat) : Prop where
  others : ∀ j, j ∉ is → s.fileTable j = s0.fileTable j
  started : ∀ j ∈ is, (s.fileTable j).count = 1 ∧ s0.fileTable j = freeEntry
  tables : ∀ t, (s.fd t).table = (s0.fd t).table
  live : s.live = s0.live

variable {s0 : FileState} {is : List Nat}

theorem Started.refl (s : FileState) : Started s s [] :=
  ⟨fun _ _ => rfl, fun _ h => absurd h not_mem_nil, fun _ => rfl, rfl⟩

theorem Started.sameTables (h : Started s0 s []) : SameTables s0 s :=
  ⟨funext fun j => h.others j not_mem_nil, h.tables, h.live⟩

theorem Started.not_mem (h : Started s0 s is) (hfree : s.fileTable i = freeEntry) : i ∉ is := by
  intro hin
  have hone := (h.started i hin).1
  rw [hfree] at hone
  cases hone

theorem Started.start (h : Started s0 s is) (hfree : s.fileTable i = freeEntry)
    (flags : BitVec 32) : Started s0 (s.setEntry i ⟨true, 1, flags, 0, none⟩) (i :: is) := by
  refine ⟨fun j hj => ?_, fun j hj => ?_, h.tables, h.live⟩
  · rw [mem_cons, not_or] at hj
    rw [← h.others j hj.2]
    exact update_of_ne hj.1 ..
  by_cases hji : j = i
  · subst hji
    refine ⟨?_, by rw [← h.others j (h.not_mem hfree), hfree]⟩
    simp [FileState.setEntry]
  · have hin := (mem_cons.mp hj).resolve_left hji
    obtain ⟨h1, h2⟩ := h.started j hin
    refine ⟨?_, h2⟩
    simpa [FileState.setEntry, hji] using h1

theorem Started.setNode (h : Started s0 s is) (hin : i ∈ is) (n : Node) :
    Started s0 (s.setNode i n) is := by
  refine ⟨fun j hj => ?_, fun j hj => ?_, h.tables, h.live⟩
  · have hji : j ≠ i := fun heq => hj (heq ▸ hin)
    rw [← h.others j hj]
    simp [FileState.setNode, FileState.setEntry, hji]
  obtain ⟨h1, h2⟩ := h.started j hj
  refine ⟨?_, h2⟩
  by_cases hji : j = i
  · subst hji
    simpa [FileState.setNode, FileState.setEntry] using h1
  · simpa [FileState.setNode, FileState.setEntry, hji] using h1

theorem Started.decrement (h : Started s0 s (i :: is)) (hi : i ∉ is) :
    Started s0 (fileDecrementCount s i) is := by
  obtain ⟨hone, hfree⟩ := h.started i mem_cons_self
  have htable := fileDecrementCount_one hone
  refine ⟨fun j hj => ?_, fun j hj => ?_, fun t => ?_, ?_⟩
  · rw [htable]
    by_cases hji : j = i
    · subst hji
      rw [update_self, hfree]
    · rw [update_of_ne hji]
      exact h.others j (by simp [hji, hj])
  · rw [htable, update_of_ne fun heq : j = i => hi (heq ▸ hj)]
    exact h.started j (.tail _ hj)
  · rw [fileDecrementCount_fd]
    exact h.tables t
  · rw [fileDecrementCount_live]
    exact h.live

theorem Started.perm {is' : List Nat} (h : Started s0 s is) (hp : is.Perm is') :
    Started s0 s is' :=
  ⟨fun j hj => h.others j fun hin => hj (hp.mem_iff.mp hin),
    fun j hj => h.started j (hp.mem_iff.mpr hj), h.tables, h.live⟩

theorem Started.same (h : Started s0 s is) (hs : SameTables s s') : Started s0 s' is :=
  ⟨fun j hj => by rw [hs.entries]; exact h.others j hj,
    fun j hj => by rw [hs.entries]; exact h.started j hj,
    fun t => (hs.tables t).trans (h.tables t), hs.live.trans h.live⟩

/-! ## The operations -/

/-- What every call does; `new` is what it promises of its answer. -/
structure Keeps {α : Type} (s : FileState) (r : Except FileCode α × FileState)
    (new : α → Prop) : Prop where
  inv : FileInv r.2 []
  live : r.2.live = s.live
  failed : ∀ c, r.1 = .error c → SameTables s r.2
  lowest : ∀ a, r.1 = .ok a → new a

theorem Keeps.of_failed {α : Type} {new : α → Prop} {c : FileCode} (h : FileInv s' [])
    (hs : SameTables s s') : Keeps s ((.error c : Except FileCode α), s') new :=
  ⟨h, hs.live, fun _ _ => hs, fun _ ha => by cases ha⟩

theorem Keeps.of_ok {α : Type} {new : α → Prop} {a : α} (h : FileInv s' [])
    (hlive : s'.live = s.live) (hnew : new a) : Keeps s ((.ok a : Except FileCode α), s') new := by
  refine ⟨h, hlive, fun c hc => ?_, fun b hb => ?_⟩
  · cases hc
  · exact Except.ok.inj hb ▸ hnew

theorem Keeps.map {α β : Type} {r : Except FileCode α × FileState} {new : α → Prop}
    {new' : β → Prop} (h : Keeps s r new) (f : α → β) (hnew : ∀ a, new a → new' (f a)) :
    Keeps s (r.1.map f, r.2) new' := by
  obtain ⟨r, s'⟩ := r
  refine ⟨h.inv, h.live, fun c hc => ?_, fun b hb => ?_⟩
  · cases r with
    | error c' => exact h.failed c' rfl
    | ok a => cases hc
  cases r with
  | error c => cases hb
  | ok a =>
    obtain rfl : f a = b := Except.ok.inj hb
    exact hnew a (h.lowest a rfl)

theorem fileClose_keeps (h : FileInv s []) (ht : t ∈ s.live) (fd : Int) :
    Keeps s (fileClose s t fd) fun _ => True := by
  refine ⟨h.close ht fd, fileClose_live s t fd, fun c hc => ?_, fun _ _ => trivial⟩
  unfold fileClose at hc ⊢
  split
  · rename_i v hv
    rw [hv] at hc
    cases hc
  · exact .refl s

theorem fileOpenDescriptor_keeps (h : FileInv s [i]) (hs : Started s0 s [i]) (ht : t ∈ s.live)
    (hnode : (s.fileTable i).node ≠ none) (c : Bool) :
    Keeps s0 (fileOpenDescriptor s t i c) (LowestFree (s0.fd t).table 0) := by
  unfold fileOpenDescriptor
  split
  · rename_i s1 heq
    have hsame := allocFileDescriptor_none (t := t) (by rw [heq])
    rw [heq] at hsame
    subst hsame
    exact .of_failed h.decrement (hs.decrement not_mem_nil).sameTables
  rename_i d s1 heq
  obtain ⟨hlow, hinv, hsame, hlt⟩ := allocFileDescriptor_some h ht (by rw [heq])
  rw [heq] at hinv hsame hlt
  have hlive : s1.live = s.live := hsame.live
  refine ⟨?_, hlive.trans hs.live, nofun, fun a ha => ?_⟩
  · refine hinv.attach (hlive ▸ ht) hlt ?_ ?_ c
    · rw [hsame.tables]
      exact hlow.free
    · rwa [show s1.fileTable = s.fileTable from hsame.entries]
  · obtain rfl : d = a := Except.ok.inj ha
    rw [← hs.tables]
    exact hlow

theorem fileOpen_keeps (h : FileInv s []) (ht : t ∈ s.live) (vfsOpen : VfsOpen) (name : String)
    (flags : BitVec 32) :
    Keeps s (fileOpen vfsOpen s t name flags) (LowestFree (s.fd t).table 0) := by
  unfold fileOpen
  simp only
  split
  · exact .of_failed h (.refl s)
  split
  · exact .of_failed h (.refl s)
  split
  · rename_i s1 heq
    have hsame := allocFileEntry_none (by rw [heq])
    rw [heq] at hsame
    subst hsame
    exact .of_failed h (.refl s1)
  rename_i i s1 heq
  obtain ⟨hfree, hnone, hstart, hi⟩ := allocFileEntry_some (i := i) h (by rw [heq])
  rw [heq] at hnone hstart
  rw [if_neg (fun hne => hne hnone), hstart]
  have hinv := h.start hi hfree flags
  have hundo := (Started.refl s).start hfree flags
  obtain ⟨s2, hs2⟩ : ∃ s2, s2 = s.setEntry i ⟨true, 1, flags, 0, none⟩ := ⟨_, rfl⟩
  have hentry : s2.fileTable i = ⟨true, 1, flags, 0, none⟩ := by
    rw [hs2]
    exact update_self ..
  rw [← hs2] at hinv hundo ⊢
  split
  · exact .of_failed hinv.decrement (hundo.decrement not_mem_nil).sameTables
  rename_i n hn
  have hinv' : FileInv (s2.setNode i n) [i] :=
    hinv.setNode (by rw [hentry]; exact Nat.one_pos) (by rw [hentry]) n
  have hundo' := hundo.setNode mem_cons_self n
  split
  · exact .of_failed hinv'.decrement (hundo'.decrement not_mem_nil).sameTables
  · refine fileOpenDescriptor_keeps hinv' hundo' ?_ ?_ _
    · rwa [hundo'.live]
    · simp [FileState.setNode, FileState.setEntry]

theorem fileDupInto_ok (h : FileInv s []) (ht : t ∈ s.live) (hv : (s.fd t).table d = some v)
    (newFd : Nat) (hnew : newFd < taskFdStaticCount) (hfree : (s.fd t).table newFd = none)
    (flags : BitVec 32) :
    (fileDupInto s t newFd v flags).1 = .ok newFd ∧ FileInv (fileDupInto s t newFd v flags).2 [] ∧
      (fileDupInto s t newFd v flags).2.live = s.live := by
  have hcount : (s.fileTable v.fte).count < intMax := by
    have hrefs := h.counts v.fte
    have hlt := h.refs_lt v.fte
    rw [count_nil] at hrefs
    omega
  have hpos := h.count_pos ht hv
  have hnode := h.named v.fte (by
    have hrefs := h.counts v.fte
    rw [count_nil] at hrefs
    omega)
  obtain ⟨n, hn⟩ : ∃ n, n = if (s.fd t).state < newFd + 1 then newFd + 1 else (s.fd t).state :=
    ⟨_, rfl⟩
  have hbounds : (s.fd t).state ≤ n ∧ newFd < n ∧ n ≤ taskFdStaticCount := by
    have hmax := (h.within t ht).1
    rw [hn]
    split <;> omega
  have hlong := h.setState hbounds.1 hbounds.2.2
  have htable : ((s.setFd t { s.fd t with state := n }).fd t).table = (s.fd t).table := by
    simp [FileState.setFd]
  unfold fileDupInto
  simp only [hcount, if_true]
  rw [← hn, htable, if_neg (fun hne => hne hfree)]
  refine ⟨rfl, ?_, rfl⟩
  refine (hlong.bump (i := v.fte) hpos).attach ht ?_ ?_ ?_ _
  · show newFd < ((s.setFd t { s.fd t with state := n }).fd t).state
    simpa [FileState.setFd] using hbounds.2.1
  · show ((s.setFd t { s.fd t with state := n }).fd t).table newFd = none
    rwa [htable]
  · simpa [FileState.setEntry, FileState.setFd] using hnode

/-- The descriptors that `file_dup` may return. -/
def DupTarget (table : Nat → Option Slot) (minFd maxFd : Int) (d : Nat) : Prop :=
  if minFd < maxFd then LowestFree table minFd.toNat d ∧ d < maxFd else (d : Int) = minFd

theorem fileDup_keeps (h : FileInv s []) (ht : t ∈ s.live) (fd minFd maxFd : Int)
    (flags : BitVec 32) :
    Keeps s (fileDup s t fd minFd maxFd flags) (DupTarget (s.fd t).table minFd maxFd) := by
  unfold fileDup
  iterate 3
    split
    · exact .of_failed h (.refl s)
  rename_i v hslot
  have hv := slot_some hslot
  simp only
  split
  · rename_i d hd
    obtain ⟨h1, h2, h3, h4⟩ := firstFree_some hd
    have hfree : (s.fd t).table d = none := by simpa using h3
    obtain ⟨hok, hinv, hlive⟩ := fileDupInto_ok h ht hv d (by omega) hfree flags
    refine ⟨hinv, hlive, fun c hc => ?_, fun a ha => ?_⟩
    · rw [hok] at hc
      cases hc
    rw [hok] at ha
    obtain rfl : d = a := Except.ok.inj ha
    rw [DupTarget, if_pos (by omega)]
    refine ⟨⟨h1, by omega, hfree, fun j hj1 hj2 hno => ?_⟩, by omega⟩
    have hfalse := h4 j hj1 hj2
    rw [hno] at hfalse
    cases hfalse
  · split
    · rename_i heq
      obtain ⟨n, rfl⟩ : ∃ n : Nat, minFd = n := ⟨minFd.toNat, by omega⟩
      have hclosed := h.close ht (n : Int)
      have hlive := fileClose_live s t (n : Int)
      have hne : fd.toNat ≠ n := by
        unfold FileState.slot at hslot
        split at hslot
        · omega
        · cases hslot
      have hkept := (fileClose_fd s t (n : Int)).2.1 fd.toNat hne
      obtain ⟨hok, hinv, hlive'⟩ := fileDupInto_ok hclosed (hlive ▸ ht) (hkept.trans hv)
        n (by omega) (fileClose_free h ht n) flags
      refine ⟨hinv, hlive'.trans hlive, fun c hc => ?_, fun a ha => ?_⟩
      · rw [Int.toNat_natCast, hok] at hc
        cases hc
      · rw [Int.toNat_natCast, hok] at ha
        obtain rfl : n = a := Except.ok.inj ha
        rw [DupTarget, if_neg (by omega)]
    · exact .of_failed h (.refl s)

theorem fileFcntl_keeps (h : FileInv s []) (ht : t ∈ s.live) (fd : Int) (cmd : FcntlCmd)
    (arg : BitVec 32) :
    Keeps s (fileFcntl s t fd cmd arg) fun a => (cmd = .dupfd ∨ cmd = .dupfdCloexec) →
      ∃ d : Nat, a = d ∧ DupTarget (s.fd t).table arg.toInt intMax d := by
  unfold fileFcntl
  split
  · exact .of_failed h (.refl s)
  rename_i v hslot
  have hv := slot_some hslot
  have hdup : ∀ flags, Keeps s ((fileDup s t fd arg.toInt intMax flags).1.map Int.ofNat,
      (fileDup s t fd arg.toInt intMax flags).2) fun a =>
        (cmd = .dupfd ∨ cmd = .dupfdCloexec) →
          ∃ d : Nat, a = d ∧ DupTarget (s.fd t).table arg.toInt intMax d :=
    fun flags => (fileDup_keeps h ht fd arg.toInt intMax flags).map _ fun d hd _ => ⟨d, rfl, hd⟩
  cases cmd with
  | dupfd => exact hdup 0
  | dupfdCloexec => exact hdup oCloexec
  | getfd | getfl => exact .of_ok h rfl fun hcmd => by simp at hcmd
  | other => exact .of_failed h (.refl s)
  | setfl => exact .of_ok (h.setFlags (h.count_pos ht hv) _) rfl fun hcmd => by simp at hcmd
  | setfd =>
    simp only
    split
    · refine .of_ok (h.setSlot ht (h.lt_state ht hv) (fun j => ?_) fun j hj => ?_) rfl
        fun hcmd => by simp at hcmd
      · simp only [FileState.target, hv, map_some]
      obtain rfl : v.fte = j := some.inj hj
      refine h.named _ ?_
      have hpos := h.count_pos ht hv
      have hcount := h.counts v.fte
      rw [count_nil] at hcount
      omega
    · exact .of_ok h rfl fun hcmd => by simp at hcmd

/-- Two new descriptors: the lowest free one, and then the lowest free one. -/
def LowestPair (table : Nat → Option Slot) (a b : Nat) : Prop :=
  LowestFree table 0 a ∧ ∃ v, LowestFree (update table a (some v)) 0 b

theorem filePairDescriptors_keeps {i0 i1 : Nat} (h : FileInv s [i0, i1])
    (hs : Started s0 s [i0, i1]) (hne : i0 ≠ i1) (ht : t ∈ s.live)
    (hnode0 : (s.fileTable i0).node ≠ none) (hnode1 : (s.fileTable i1).node ≠ none) (c : Bool) :
    Keeps s0 (filePairDescriptors s t i0 i1 c) fun a => LowestPair (s0.fd t).table a.1 a.2 := by
  have hno : i0 ∉ [i1] := fun hin => hne (mem_singleton.mp hin)
  unfold filePairDescriptors
  split
  · rename_i s1 heq
    have hsame := allocFileDescriptor_none (t := t) (by rw [heq])
    rw [heq] at hsame
    subst hsame
    exact .of_failed h.decrement.decrement
      ((hs.decrement hno).decrement not_mem_nil).sameTables
  rename_i d0 s1 heq
  obtain ⟨hlow0, hinv1, hsame1, hlt0⟩ := allocFileDescriptor_some h ht (by rw [heq])
  rw [heq] at hinv1 hsame1 hlt0
  have ht1 : t ∈ s1.live := hsame1.live ▸ ht
  have hfree0 : (s1.fd t).table d0 = none := by
    rw [hsame1.tables]
    exact hlow0.free
  have hs1 := hs.same hsame1
  have hinv2 : FileInv (s1.setSlot t d0 (some ⟨i0, c⟩)) [i1] :=
    hinv1.attach ht1 hlt0 hfree0 (by rw [hsame1.entries]; exact hnode0) c
  simp only
  split
  · rename_i s2 heq2
    have hsame := allocFileDescriptor_none (s := s1.setSlot t d0 (some ⟨i0, c⟩))
      (by rw [heq2])
    rw [heq2] at hsame
    change s2 = s1.setSlot t d0 (some ⟨i0, c⟩) at hsame
    rw [hsame, fileClose_setSlot hlt0 hfree0]
    exact .of_failed hinv1.decrement.decrement
      ((hs1.decrement hno).decrement not_mem_nil).sameTables
  · rename_i d1 s2 heq2
    obtain ⟨hlow1, hinv3, hsame2, hlt1⟩ :=
      allocFileDescriptor_some (d := d1) hinv2 ht1 (by rw [heq2])
    rw [heq2] at hinv3 hsame2 hlt1
    have hlive : s2.live = s1.live := hsame2.live
    refine ⟨?_, hlive.trans hs1.live, nofun, fun a ha => ?_⟩
    · refine hinv3.attach (hlive ▸ ht1) hlt1 ?_ ?_ c
      · rw [hsame2.tables]
        exact hlow1.free
      · rwa [show s2.fileTable = s1.fileTable from hsame2.entries, hsame1.entries]
    · obtain rfl : (d0, d1) = a := Except.ok.inj ha
      rw [setSlot_table, hs1.tables] at hlow1
      rw [hs.tables] at hlow0
      exact ⟨hlow0, _, hlow1⟩

theorem filePair_keeps (h : FileInv s []) (ht : t ∈ s.live) (flags0 flags1 : BitVec 32)
    (c : Bool) (create : Except Nat (Node × Node)) :
    Keeps s (filePair flags0 flags1 c create s t)
      fun a => LowestPair (s.fd t).table a.1 a.2 := by
  unfold filePair
  split
  · rename_i s1 heq
    have hsame := allocFileEntry_none (by rw [heq])
    rw [heq] at hsame
    subst hsame
    exact .of_failed h (.refl s1)
  rename_i i0 s1 heq
  obtain ⟨hfree0, -, hstart0, hi0⟩ := allocFileEntry_some (i := i0) h (by rw [heq])
  rw [heq] at hstart0
  simp only [hstart0]
  have hinv1 := h.start hi0 hfree0 flags0
  have hs1 := (Started.refl s).start hfree0 flags0
  obtain ⟨s2, hs2⟩ : ∃ s2, s2 = s.setEntry i0 ⟨true, 1, flags0, 0, none⟩ := ⟨_, rfl⟩
  have hentry0 : s2.fileTable i0 = ⟨true, 1, flags0, 0, none⟩ := by
    rw [hs2]
    exact update_self ..
  rw [← hs2] at hinv1 hs1 ⊢
  split
  · rename_i s3 heq3
    have hsame := allocFileEntry_none (by rw [heq3])
    rw [heq3] at hsame
    subst hsame
    exact .of_failed hinv1.decrement (hs1.decrement not_mem_nil).sameTables
  rename_i i1 s3 heq3
  obtain ⟨hfree1, -, hstart1, hi1⟩ := allocFileEntry_some (i := i1) hinv1 (by rw [heq3])
  rw [heq3] at hstart1
  simp only [hstart1]
  have hne : i0 ≠ i1 := by
    rintro rfl
    rw [hentry0] at hfree1
    cases congrArg FileTableEntry.count hfree1
  have hinv2 := (hinv1.start hi1 hfree1 flags1).perm (List.Perm.swap i0 i1 [])
  have hs3 := (hs1.start hfree1 flags1).perm (List.Perm.swap i0 i1 [])
  obtain ⟨s4, hs4⟩ : ∃ s4, s4 = s2.setEntry i1 ⟨true, 1, flags1, 0, none⟩ := ⟨_, rfl⟩
  have hentry1 : s4.fileTable i1 = ⟨true, 1, flags1, 0, none⟩ := by
    rw [hs4]
    exact update_self ..
  have hentry0' : s4.fileTable i0 = ⟨true, 1, flags0, 0, none⟩ := by
    rw [hs4, ← hentry0]
    exact update_of_ne hne ..
  rw [← hs4] at hinv2 hs3 ⊢
  split
  · exact .of_failed hinv2.decrement.decrement ((hs3.decrement
      fun hin => hne (mem_singleton.mp hin)).decrement not_mem_nil).sameTables
  rename_i n0 n1
  have hpos0 : 0 < (s4.fileTable i0).count := by
    rw [hentry0']
    exact Nat.one_pos
  have hother : (s4.setNode i0 n0).fileTable i1 = ⟨true, 1, flags1, 0, none⟩ := by
    rw [← hentry1]
    exact update_of_ne hne.symm ..
  have hinv3 := (hinv2.setNode hpos0 (by rw [hentry0']) n0).setNode
    (by rw [hother]; exact Nat.one_pos) (by rw [hother]) n1
  have hs5 := (hs3.setNode (i := i0) (by simp) n0).setNode (i := i1) (by simp) n1
  refine filePairDescriptors_keeps hinv3 hs5 hne ?_ ?_ ?_ c
  · rwa [hs5.live]
  · simp [FileState.setNode, FileState.setEntry, hne]
  · simp [FileState.setNode, FileState.setEntry]

/-! ## The file table over whole runs -/

variable {t new i d : Nat}

theorem FileInv.newTask (h : FileInv s []) (hnew : new ∉ s.live)
    (hlimit : s.live.length < taskStructLimit) :
    FileInv { s.setFd new ⟨0, fun _ => none⟩ with live := new :: s.live } [] := by
  obtain ⟨s1, hs1⟩ : ∃ s1, s1 = { s.setFd new ⟨0, fun _ => none⟩ with live := new :: s.live } :=
    ⟨_, rfl⟩
  rw [← hs1]
  have hfd : ∀ t, t ≠ new → s1.fd t = s.fd t := fun t ht => by
    rw [hs1]
    exact Function.update_of_ne ht ..
  have hfdnew : s1.fd new = ⟨0, fun _ => none⟩ := by
    rw [hs1]
    exact Function.update_self ..
  have hlive : s1.live = new :: s.live := by rw [hs1]
  have htable : s1.fileTable = s.fileTable := by
    rw [hs1]
    rfl
  have hrefs : ∀ i, s1.refs i = s.refs i := by
    intro i
    have hsub : s.slots ⊆ s1.slots := by
      intro k hk
      simp only [FileState.slots, hlive, Finset.mem_product, List.mem_toFinset,
        mem_cons] at hk ⊢
      exact ⟨.inr hk.1, hk.2⟩
    have hmore : Slots.refs s1.slots s1.target i = Slots.refs s.slots s1.target i := by
      refine Slots.refs_subset hsub fun k hk hno => ?_
      have hknew : k.1 = new := by
        by_contra hne
        refine hno ?_
        simp only [FileState.slots, hlive, Finset.mem_product, List.mem_toFinset,
          mem_cons] at hk ⊢
        exact ⟨hk.1.resolve_left hne, hk.2⟩
      unfold FileState.target
      rw [hknew, hfdnew]
      rfl
    refine hmore.trans (Slots.refs_congr fun k hk => ?_)
    simp only [FileState.slots, Finset.mem_product, List.mem_toFinset] at hk
    unfold FileState.target
    rw [hfd k.1 fun heq => hnew (heq ▸ hk.1)]
  refine ⟨fun i => ?_, ?_, ?_, fun i hpos => ?_, fun t ht => ?_, fun n => ?_, ?_⟩
  · rw [htable, hrefs]
    exact h.counts i
  · rw [htable]
    exact h.free
  · rw [htable]
    exact h.busy
  · rw [hrefs] at hpos
    rw [htable]
    exact h.named i hpos
  · by_cases htn : t = new
    · subst htn
      rw [hfdnew]
      simp
    · rw [hlive] at ht
      rw [hfd t htn]
      exact h.within t ((mem_cons.mp ht).resolve_left htn)
  · unfold FileState.holders
    rw [htable, hs1]
    exact h.handles n
  · rwa [hlive]

/-- What holds while `fd_clone_func` is at descriptor `k`. -/
structure Cloning (s s' : FileState) (t new k : Nat) : Prop where
  inv : FileInv s' []
  live : s'.live = s.live
  source : s'.fd t = s.fd t
  state : (s'.fd new).state = (s.fd t).state
  ahead : ∀ d, k ≤ d → (s'.fd new).table d = none

theorem Cloning.step {k : Nat} (h : Cloning s s' t new k) (ht : t ∈ s.live)
    (hnew : new ∈ s.live) (hne : t ≠ new) (hk : k < (s.fd t).state) :
    Cloning s (fdCloneSlot t new s' k) t new (k + 1) := by
  have hfree := h.ahead k (le_refl k)
  have hkeep : ∀ v, ((s'.setSlot new k v).fd t) = s.fd t ∧
      ((s'.setSlot new k v).fd new).state = (s.fd t).state ∧
      ∀ d, k + 1 ≤ d → ((s'.setSlot new k v).fd new).table d = none := by
    intro v
    refine ⟨?_, ?_, fun d hd => ?_⟩
    · rw [← h.source]
      exact Function.update_of_ne hne ..
    · rw [← h.state]
      simp [FileState.setSlot, FileState.setFd]
    · rw [setSlot_table, Function.update_of_ne (by omega)]
      exact h.ahead d (by omega)
  unfold fdCloneSlot
  split
  · obtain ⟨h1, h2, h3⟩ := hkeep none
    refine ⟨?_, h.live, h1, h2, h3⟩
    refine h.inv.setSlot (h.live ▸ hnew) (h.state ▸ hk) (fun i => ?_) fun i hi => by cases hi
    rw [FileState.target, hfree]
  rename_i v hv
  obtain ⟨h1, h2, h3⟩ := hkeep (some v)
  have hpos := h.inv.count_pos (h.live ▸ ht) hv
  have hcount := h.inv.counts v.fte
  rw [count_nil] at hcount
  have hmax := h.inv.refs_lt v.fte
  have hcond : (s'.fileTable v.fte).count > 0 ∧ (s'.fileTable v.fte).count < intMax :=
    ⟨hpos, by omega⟩
  have hnode := h.inv.named v.fte (by omega)
  rw [if_pos (show ((s'.setSlot new k (some v)).fileTable v.fte).count > 0 ∧
    ((s'.setSlot new k (some v)).fileTable v.fte).count < intMax from hcond)]
  refine ⟨?_, h.live, h1, h2, h3⟩
  refine (h.inv.bump hpos).attach (h.live ▸ hnew) (h.state ▸ hk) hfree ?_ v.cloexec
  simpa [FileState.setEntry] using hnode

theorem Cloning.loop (h : Cloning s s' t new 0) (ht : t ∈ s.live) (hnew : new ∈ s.live)
    (hne : t ≠ new) : ∀ k, k ≤ (s.fd t).state →
      Cloning s ((range k).foldl (fdCloneSlot t new) s') t new k := by
  intro k
  induction k with
  | zero => exact fun _ => h
  | succ k ih =>
    intro hk
    rw [range_succ, foldl_append]
    exact (ih (by omega)).step ht hnew hne hk

section

variable (h : FileInv s [])
include h

theorem FileInv.taskCreate (ht : t ∈ s.live) (hnew : new ∉ s.live)
    (hlimit : s.live.length < taskStructLimit) :
    FileInv (taskCreate s t new) [] ∧ (taskCreate s t new).live = new :: s.live := by
  have hne : t ≠ new := fun heq => hnew (heq ▸ ht)
  have hinv := h.newTask hnew hlimit
  unfold Dancy.Files.taskCreate
  simp only
  split
  · obtain ⟨s1, hs1⟩ : ∃ s1, s1 = { s.setFd new ⟨0, fun _ => none⟩ with live := new :: s.live } :=
      ⟨_, rfl⟩
    rw [← hs1] at hinv ⊢
    have hlive : s1.live = new :: s.live := by rw [hs1]
    have ht1 : t ∈ s1.live := hlive ▸ mem_cons_of_mem _ ht
    have hnew1 : new ∈ s1.live := hlive ▸ mem_cons_self
    have hfdnew : s1.fd new = ⟨0, fun _ => none⟩ := by
      rw [hs1]
      exact Function.update_self ..
    have hstart : Cloning s1 (s1.setFd new { s1.fd new with state := (s1.fd t).state }) t new 0 := by
      refine ⟨hinv.setState ?_ (hinv.within t ht1).1, rfl, ?_, ?_, fun d _ => ?_⟩
      · rw [hfdnew]
        simp
      · exact Function.update_of_ne hne ..
      · simp [FileState.setFd]
      · simp [FileState.setFd, hfdnew]
    have hdone := hstart.loop ht1 hnew1 hne _ le_rfl
    unfold fdCloneFunc
    simp only [hstart.source]
    exact ⟨hdone.inv, hdone.live.trans hlive⟩
  · exact ⟨hinv, rfl⟩

theorem fdReleaseFunc_loop (ht : t ∈ s.live) : ∀ k,
    let r := (range k).foldl (fun s (i : Nat) => (fileClose s t i).2) s
    FileInv r [] ∧ r.live = s.live ∧ (r.fd t).state = (s.fd t).state ∧
      ∀ d < k, (r.fd t).table d = none := by
  intro k
  induction k with
  | zero => exact ⟨h, rfl, rfl, fun d hd => absurd hd (Nat.not_lt_zero d)⟩
  | succ k ih =>
    obtain ⟨hinv, hlive, hstate, hnone⟩ := ih
    rw [range_succ, foldl_append]
    obtain ⟨s1, hs1⟩ : ∃ s1, s1 = (range k).foldl (fun s (i : Nat) => (fileClose s t i).2) s :=
      ⟨_, rfl⟩
    rw [← hs1] at hinv hlive hstate hnone ⊢
    obtain ⟨h1, -, h3⟩ := fileClose_fd s1 t (k : Int)
    refine ⟨hinv.close (hlive ▸ ht) k, (fileClose_live s1 t k).trans hlive, h1.trans hstate,
      fun d hd => ?_⟩
    rcases Nat.lt_succ_iff_lt_or_eq.mp hd with hlt | rfl
    · exact h3 d (hnone d hlt)
    · exact fileClose_free hinv (hlive ▸ ht) d

theorem FileInv.removeTask (hnone : ∀ d, (s.fd t).table d = none) :
    FileInv { s with live := s.live.filter (· ≠ t) } [] := by
  have hrefs : ∀ i, ({ s with live := s.live.filter (· ≠ t) } : FileState).refs i = s.refs i := by
    intro i
    refine (Slots.refs_subset ?_ fun k hk hno => ?_).symm
    · intro k hk
      simp only [FileState.slots, Finset.mem_product, List.mem_toFinset, mem_filter] at hk ⊢
      exact ⟨hk.1.1, hk.2⟩
    have hkt : k.1 = t := by
      by_contra hne
      refine hno ?_
      simp only [FileState.slots, Finset.mem_product, List.mem_toFinset,
        mem_filter, decide_eq_true_eq] at hk ⊢
      exact ⟨⟨hk.1, hne⟩, hk.2⟩
    unfold FileState.target
    rw [hkt, hnone]
    rfl
  refine ⟨fun i => ?_, h.free, h.busy, fun i hpos => h.named i (hrefs i ▸ hpos),
    fun t' ht' => h.within t' (mem_of_mem_filter ht'), h.handles,
    (length_filter_le _ _).trans h.limit⟩
  rw [hrefs]
  exact h.counts i

theorem FileInv.taskExit (ht : t ∈ s.live) : FileInv (taskExit s t) [] := by
  obtain ⟨hinv, hlive, hstate, hnone⟩ := fdReleaseFunc_loop h ht (s.fd t).state
  unfold Dancy.Files.taskExit
  split
  · refine FileInv.removeTask hinv fun d => ?_
    rcases lt_or_ge d (s.fd t).state with hlt | hge
    · exact hnone d hlt
    · refine (hinv.within t (by rw [hlive]; exact ht)).2 d ?_
      rwa [hstate]
  · rename_i h0
    refine h.removeTask fun d => (h.within t ht).2 d ?_
    rw [Decidable.not_not] at h0
    rw [h0]
    exact Nat.zero_le d

end

/-! ## Runs -/

/-- The calls of a task; the answers of the file system come with them. -/
inductive FileOp where
  | fileOpen (task : Nat) (vfsOpen : VfsOpen) (name : String) (flags : BitVec 32)
  | fileClose (task : Nat) (fd : Int)
  | fileDup (task : Nat) (fd minFd maxFd : Int) (flags : BitVec 32)
  | fileFcntl (task : Nat) (fd : Int) (cmd : FcntlCmd) (arg : BitVec 32)
  | filePipe (task : Nat) (create : Except Nat (Node × Node)) (flags : BitVec 32)
  | fileOpenpty (task : Nat) (create : Except Nat (Node × Node))
  | taskCreate (task new : Nat)
  | taskExit (task : Nat)

inductive FileAnswer where
  | done
  | fd (d : Nat)
  | pair (a b : Nat)
  | value (v : Int)

namespace FileOp

def task : FileOp → Nat
  | fileOpen t .. | fileClose t .. | fileDup t .. | fileFcntl t .. | filePipe t ..
  | fileOpenpty t .. | taskCreate t .. | taskExit t => t

def exec (s : FileState) : FileOp → Except FileCode FileAnswer × FileState
  | fileOpen t vfsOpen name flags =>
    let r := Dancy.Files.fileOpen vfsOpen s t name flags
    (r.1.map .fd, r.2)
  | fileClose t fd =>
    let r := Dancy.Files.fileClose s t fd
    (r.1.map fun _ => .done, r.2)
  | fileDup t fd minFd maxFd flags =>
    let r := Dancy.Files.fileDup s t fd minFd maxFd flags
    (r.1.map .fd, r.2)
  | fileFcntl t fd cmd arg =>
    let r := Dancy.Files.fileFcntl s t fd cmd arg
    (r.1.map .value, r.2)
  | filePipe t create flags =>
    let r := Dancy.Files.filePipe create s t flags
    (r.1.map fun a => .pair a.1 a.2, r.2)
  | fileOpenpty t create =>
    let r := Dancy.Files.fileOpenpty create s t
    (r.1.map fun a => .pair a.1 a.2, r.2)
  | taskCreate t new =>
    -- `new` is a structure that is not in use
    if new ∉ s.live ∧ s.live.length < taskStructLimit then
      (.ok .done, Dancy.Files.taskCreate s t new)
    else (.error .memory, s)
  | taskExit t => (.ok .done, Dancy.Files.taskExit s t)

def NewLowest (s : FileState) : FileOp → FileAnswer → Prop
  | fileOpen t .., .fd d => LowestFree (s.fd t).table 0 d
  | fileDup t _ minFd maxFd _, .fd d => DupTarget (s.fd t).table minFd maxFd d
  | fileFcntl t _ .dupfd arg, .value v =>
    ∃ d : Nat, v = d ∧ DupTarget (s.fd t).table arg.toInt intMax d
  | fileFcntl t _ .dupfdCloexec arg, .value v =>
    ∃ d : Nat, v = d ∧ DupTarget (s.fd t).table arg.toInt intMax d
  | filePipe t .., .pair a b => LowestPair (s.fd t).table a b
  | fileOpenpty t .., .pair a b => LowestPair (s.fd t).table a b
  | _, _ => True

end FileOp

inductive FileStep : FileState → FileOp → FileState → Prop where
  | call (s : FileState) (op : FileOp) : op.task ∈ s.live → FileStep s op (op.exec s).2

theorem exec_keeps (h : FileInv s []) {op : FileOp} (ht : op.task ∈ s.live) :
    FileInv (op.exec s).2 [] ∧ (∀ c, (op.exec s).1 = .error c → SameTables s (op.exec s).2) ∧
      ∀ a, (op.exec s).1 = .ok a → op.NewLowest s a := by
  cases op with
  | fileOpen t vfsOpen name flags =>
    have hk : Keeps s (FileOp.exec s (.fileOpen t vfsOpen name flags))
        (FileOp.NewLowest s (.fileOpen t vfsOpen name flags)) :=
      (fileOpen_keeps h ht vfsOpen name flags).map FileAnswer.fd fun d hd => hd
    exact ⟨hk.inv, hk.failed, hk.lowest⟩
  | fileClose t fd =>
    have hk : Keeps s (FileOp.exec s (.fileClose t fd))
        (FileOp.NewLowest s (.fileClose t fd)) :=
      (fileClose_keeps h ht fd).map (fun _ => FileAnswer.done) fun _ _ => trivial
    exact ⟨hk.inv, hk.failed, hk.lowest⟩
  | fileDup t fd minFd maxFd flags =>
    have hk : Keeps s (FileOp.exec s (.fileDup t fd minFd maxFd flags))
        (FileOp.NewLowest s (.fileDup t fd minFd maxFd flags)) :=
      (fileDup_keeps h ht fd minFd maxFd flags).map FileAnswer.fd fun d hd => hd
    exact ⟨hk.inv, hk.failed, hk.lowest⟩
  | fileFcntl t fd cmd arg =>
    have hk : Keeps s (FileOp.exec s (.fileFcntl t fd cmd arg))
        (FileOp.NewLowest s (.fileFcntl t fd cmd arg)) :=
      (fileFcntl_keeps h ht fd cmd arg).map FileAnswer.value fun v hv => by
        cases cmd with
        | dupfd => exact hv (.inl rfl)
        | dupfdCloexec => exact hv (.inr rfl)
        | _ => trivial
    exact ⟨hk.inv, hk.failed, hk.lowest⟩
  | filePipe t create flags =>
    have hk : Keeps s (FileOp.exec s (.filePipe t create flags))
        (FileOp.NewLowest s (.filePipe t create flags)) :=
      (filePair_keeps h ht _ _ _ create).map (fun a => FileAnswer.pair a.1 a.2) fun d hd => hd
    exact ⟨hk.inv, hk.failed, hk.lowest⟩
  | fileOpenpty t create =>
    have hk : Keeps s (FileOp.exec s (.fileOpenpty t create))
        (FileOp.NewLowest s (.fileOpenpty t create)) :=
      (filePair_keeps h ht _ _ _ create).map (fun a => FileAnswer.pair a.1 a.2) fun d hd => hd
    exact ⟨hk.inv, hk.failed, hk.lowest⟩
  | taskCreate t new =>
    simp only [FileOp.exec]
    split
    · rename_i hnew
      exact ⟨(h.taskCreate ht hnew.1 hnew.2).1, nofun, fun _ _ => trivial⟩
    · exact ⟨h, fun _ _ => .refl s, nofun⟩
  | taskExit t => exact ⟨h.taskExit ht, nofun, fun _ _ => trivial⟩

structure NoFiles (s : FileState) : Prop where
  entries : ∀ i, s.fileTable i = freeEntry
  tables : ∀ t ∈ s.live, (s.fd t).state = 0 ∧ ∀ d, (s.fd t).table d = none
  opened : s.opened = []
  released : s.released = []
  limit : s.live.length ≤ taskStructLimit

theorem NoFiles.inv (h : NoFiles s) : FileInv s [] := by
  have hcount : ∀ i, (s.fileTable i).count = 0 := fun i => by
    rw [h.entries]
    rfl
  have hrefs : ∀ i, s.refs i = 0 := by
    intro i
    refine Slots.refs_eq_zero fun k hk hkey => ?_
    simp only [FileState.slots, Finset.mem_product, List.mem_toFinset] at hk
    rw [FileState.target, (h.tables k.1 hk.1).2] at hkey
    cases hkey
  refine ⟨fun i => ?_, fun i _ => h.entries i, fun i hpos => ?_, fun i hpos => ?_, fun t ht => ?_,
    fun n => ?_, h.limit⟩
  · rw [hcount, hrefs]
    rfl
  · rw [hcount] at hpos
    cases hpos
  · rw [hrefs] at hpos
    exact absurd hpos (lt_irrefl 0)
  · obtain ⟨h1, h2⟩ := h.tables t ht
    rw [h1]
    exact ⟨Nat.zero_le _, fun d _ => h2 d⟩
  · have hholders : s.holders n = 0 := Slots.refs_eq_zero fun i _ hi => by
      rw [h.entries] at hi
      cases hi
    rw [h.opened, h.released, hholders, count_nil]

/-- Counts are numbers of descriptors, and every node that was opened was
released once or belongs to one entry in use. -/
structure FileTableOk (s : FileState) : Prop where
  counts : ∀ i, (s.fileTable i).count = s.refs i
  free_iff : ∀ i, (s.fileTable i).lock = false ↔ (s.fileTable i).count = 0
  node_iff : ∀ i, (s.fileTable i).node = none ↔ (s.fileTable i).count = 0
  handles : ∀ n, s.opened.count n = s.released.count n + s.holders n

theorem FileInv.ok (h : FileInv s []) : FileTableOk s := by
  have hcounts : ∀ i, (s.fileTable i).count = s.refs i := fun i => by
    simp [h.counts i]
  refine ⟨hcounts, fun i => ⟨fun hlock => ?_, fun h0 => ?_⟩, fun i => ⟨fun hnode => ?_,
    fun h0 => ?_⟩, h.handles⟩
  · rw [h.unlocked hlock]
    rfl
  · rw [h.free i h0]
    rfl
  · by_contra hne
    rw [hcounts] at hne
    exact h.named i (Nat.pos_of_ne_zero hne) hnode
  · rw [h.free i h0]
    rfl

/-- **The file table**: in every state of every run the counts are right; a
call that fails then changes no descriptor and no entry, and a new
descriptor is the lowest free one. -/
theorem file_table_of_run {s0 : FileState} {ops : List FileOp} (h0 : NoFiles s0)
    (hrun : Run FileStep s0 ops s) :
    FileTableOk s ∧ ∀ op : FileOp, op.task ∈ s.live →
      (∀ c, (op.exec s).1 = .error c → SameTables s (op.exec s).2) ∧
      ∀ a, (op.exec s).1 = .ok a → op.NewLowest s a := by
  have hinv : FileInv s [] := by
    refine hrun.invariant (I := fun s => FileInv s []) (fun s1 op s2 h hs => ?_) h0.inv
    cases hs with
    | call ht => exact (exec_keeps h ht).1
  exact ⟨hinv.ok, fun op ht => (exec_keeps hinv ht).2⟩

def oneTask : FileState := ⟨fun _ => freeEntry, [1], fun _ => ⟨0, fun _ => none⟩, [], []⟩

theorem file_table_of_run_open : FileTableOk
    (FileOp.exec oneTask (.fileOpen 1 (fun _ _ _ => .ok ⟨7, 4⟩) "/dev/null" oRdwr)).2 :=
  (file_table_of_run ⟨fun _ => rfl, fun _ _ => ⟨rfl, fun _ => rfl⟩, rfl, rfl, by decide⟩
    (.single (.call oneTask _ (mem_singleton.mpr rfl)))).1

end Dancy.Files
