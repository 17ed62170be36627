import Dancy.Files.Spawn
import Dancy.Tasks.Reap

/-!
# What a spawned task does to the file table

The new task takes steps that touch its own descriptors only. From the copy
of the parent's table it gets to the table the actions ask for; when it ends
without having come that far, the file table is the one of before.
-/

namespace Dancy.Files

open List Function Option Dancy.Lib
open Dancy.Tasks (WaitSys WaitEvent WaitStep ChildAt InCall Calm Interrupting waitFor)

variable {s s' s0 : FileState} {t d k : Nat} {v : Slot} {info : SpawnFile → FileInfo}
  {tab : SpawnTable} {place : SpawnFile → Nat}

/-- Task `t` takes steps. -/
abbrev Works (t : Nat) : FileState → FileState → Prop :=
  Relation.ReflTransGen fun s s' => Touches s s' t

section

variable (hw : Works t s s')
include hw

theorem Works.inv (h : FileInv s []) : FileInv s' [] := by
  cases hw with
  | refl => exact h
  | tail _ htouch => exact htouch.inv

theorem Works.live : s'.live = s.live := by
  induction hw with
  | refl => rfl
  | tail _ htouch ih => exact htouch.live.trans ih

theorem Works.others {t' : Nat} (htt : t' ≠ t) : (s'.fd t').table = (s.fd t').table := by
  induction hw with
  | refl => rfl
  | tail _ htouch ih => exact (htouch.others t' htt).trans ih

theorem Works.kept (h : FileInv s []) {t' : Nat} (ht : t' ∈ s.live) (htt : t' ≠ t)
    (hv : (s.fd t').table d = some v) : (s'.fileTable v.fte).info = (s.fileTable v.fte).info := by
  induction hw with
  | refl => rfl
  | @tail s1 s2 hw htouch ih =>
    have hw : Works t s s1 := hw
    have hlive := hw.live
    have hv1 : (s1.fd t').table d = some v := by rw [hw.others htt, hv]
    have hpos1 := (hw.inv h).count_pos (hlive ▸ ht) hv1
    have hpos2 : 0 < (s2.fileTable v.fte).count := by
      refine htouch.inv.count_pos (d := d) (by rw [htouch.live, hlive]; exact ht) ?_
      rw [htouch.others t' htt, hv1]
    exact (htouch.kept _ hpos1 hpos2).trans ih

end

/-! ## One action -/

theorem spawnDup_snd (s : FileState) (t : Nat) (fd newFd : Int) :
    (spawnDup s t fd newFd).2 = (fileDup s t fd newFd newFd 0).2 := by
  unfold spawnDup
  split <;> simp_all

theorem spawnDup_ok {fd newFd : Int} (hok : (spawnDup s t fd newFd).1 = none) :
    ∃ d, (fileDup s t fd newFd newFd 0).1 = .ok d := by
  unfold spawnDup at hok
  split at hok
  · rename_i d s1 heq
    exact ⟨d, by rw [heq]⟩
  · split at hok <;> cases hok

theorem slot_natCast {fd : Int} (hslot : s.slot t fd = some v) : ∃ m : Nat, fd = m := by
  unfold FileState.slot at hslot
  split at hslot
  · exact ⟨fd.toNat, by omega⟩
  · cases hslot

theorem spawnDup_works (h : FileInv s []) (ht : t ∈ s.live) (fd newFd : Int) :
    Works t s (spawnDup s t fd newFd).2 := by
  rw [spawnDup_snd]
  cases hr : (fileDup s t fd newFd newFd 0).1 with
  | error c => exact .single ((fileDup_keeps h ht fd newFd newFd 0).touches hr)
  | ok d =>
    obtain ⟨hdiff, h0, hmax, v, hslot, hafter⟩ := fileDup_ok hr
    obtain ⟨n, rfl⟩ : ∃ n : Nat, newFd = n := ⟨newFd.toNat, by omega⟩
    obtain ⟨m, rfl⟩ := slot_natCast hslot
    have hclose := fileClose_touches h ht (n : Int)
    have hv := ((fileClose_fd s t (n : Int)).2.1 m (by omega)).trans
      (slot_some hslot)
    rw [hafter, Int.toNat_natCast]
    exact .tail (.single hclose) (fileDupInto_touches hclose.inv (hclose.live ▸ ht) hv
      (by omega) (fileClose_free h ht n) 0).1

theorem spawnDup_simulates (hs : Simulates info s t k tab place) (h : FileInv s [])
    (ht : t ∈ s.live) {fd newFd : Int} (hok : (spawnDup s t fd newFd).1 = none) :
    fd ≠ newFd ∧ 0 ≤ newFd ∧ Simulates info (spawnDup s t fd newFd).2 t k
      (tab.set newFd ((tab.get fd).map fun x => ⟨x.file, false⟩)) place := by
  obtain ⟨d, hr⟩ := spawnDup_ok hok
  obtain ⟨hdiff, h0, hmax, v, hslot, hafter⟩ := fileDup_ok hr
  obtain ⟨n, rfl⟩ : ∃ n : Nat, newFd = n := ⟨newFd.toNat, by omega⟩
  obtain ⟨m, rfl⟩ := slot_natCast hslot
  have hv := slot_some hslot
  rw [Int.toNat_natCast, hs.table] at hv
  obtain ⟨x, hx, hxv⟩ := map_eq_some_iff.mp hv
  have hclosed := hs.close h ht (n : Int)
  have htouch := fileClose_touches h ht (n : Int)
  rw [SpawnTable.set_natCast] at hclosed
  have hsource : Function.update tab n none m = some x := by
    rw [update_of_ne (by omega), hx]
  have hfree : Function.update tab n none n = none := update_self ..
  have hdone := hclosed.dupInto htouch.inv (htouch.live ▸ ht) hsource (by omega) hfree
  rw [hxv, update_idem] at hdone
  refine ⟨hdiff, h0, ?_⟩
  rwa [spawnDup_snd, hafter, Int.toNat_natCast, SpawnTable.set_natCast, SpawnTable.get,
    if_pos (Int.natCast_nonneg m), Int.toNat_natCast, hx]

theorem runAction_works (h : FileInv s []) (ht : t ∈ s.live) (vfsOpen : VfsOpen)
    (ioctl : Option SpawnCode) (a : SpawnAction CopiedPath) :
    Works t s (runAction vfsOpen ioctl s t a).2 := by
  cases a with
  | addClose fd p => exact .single (fileClose_touches h ht fd)
  | addDup2 fd newFd p =>
    simp only [runAction]
    split
    · have hgetfd : (fileFcntl s t fd .getfd 0).2 = s := by
        unfold fileFcntl
        split <;> rfl
      split <;> rename_i heq <;> rw [heq] at hgetfd <;> exact hgetfd ▸ .refl
    · exact spawnDup_works h ht fd newFd
  | addOpen fd flags p =>
    have hkeeps := fileOpen_keeps h ht vfsOpen p.text flags
    simp only [runAction]
    split
    · rename_i c s1 heq
      have htouch : Touches s (fileOpen vfsOpen s t p.text flags).2 t :=
        hkeeps.touches (by rw [heq])
      rw [heq] at htouch
      exact .single htouch
    rename_i d s1 heq
    obtain ⟨i, n, -, hopened⟩ := fileOpen_opened h ht (by rw [heq])
    rw [heq] at hopened
    have htouch := hopened.touches
    split
    · exact .single htouch
    have ht1 : t ∈ s1.live := by rw [htouch.live]; exact ht
    have hdup := spawnDup_works htouch.inv ht1 d fd
    refine .tail (.head htouch hdup) (fileClose_touches (hdup.inv htouch.inv) ?_ d)
    rwa [hdup.live]
  | addTcset fd p | unknown p => exact .refl

def openedFile (vfsOpen : VfsOpen) : SpawnAction String → FileInfo
  | .addOpen _ flags name =>
    match vfsOpen name
      (if flags &&& oDirectory ≠ 0 then vfsTypeDirectory else vfsTypeUnknown)
      (openMode flags) with
    | .ok n => ⟨some n, flags, 0⟩
    | .error _ => ⟨none, flags, 0⟩
  | _ => ⟨none, 0, 0⟩

theorem Simulates.isLowest (hs : Simulates info s t k tab place)
    (hlow : LowestFree (s.fd t).table 0 d) (fd : Int) : tab.IsLowest fd ↔ (d : Int) = fd := by
  have hused : ∀ j < d, tab j ≠ none := fun j hj hno =>
    hlow.used j (Nat.zero_le j) hj (hs.eq_none.mpr hno)
  have hfree := hs.eq_none.mp hlow.free
  constructor
  · rintro ⟨h0, hnone, hbelow⟩
    rcases Nat.lt_trichotomy fd.toNat d with hlt | heq | hgt
    · exact absurd hnone (hused _ hlt)
    · omega
    · exact absurd hfree (hbelow d hgt)
  · rintro rfl
    exact ⟨Int.natCast_nonneg d, hfree, hused⟩

theorem SpawnTable.open_dup_close {x : SpawnDescriptor} {fd : Int} (hne : (d : Int) ≠ fd)
    (hfree : tab d = none) :
    SpawnTable.set (SpawnTable.set (Function.update tab d (some x)) fd (some ⟨x.file, false⟩))
      d none = tab.set fd (some ⟨x.file, false⟩) := by
  rw [SpawnTable.set_natCast]
  unfold SpawnTable.set
  split
  · have hdf : d ≠ fd.toNat := by omega
    simp [update_comm hdf.symm, ← hfree]
  · rw [update_idem, ← hfree, update_eq_self]

theorem runAction_simulates (hs : Simulates info s t k tab place) (h : FileInv s [])
    (ht : t ∈ s.live) {vfsOpen : VfsOpen} {ioctl : Option SpawnCode}
    {a : SpawnAction CopiedPath} (hinfo : info (.opened k) = openedFile vfsOpen (a.mapPath (·.text)))
    (hok : (runAction vfsOpen ioctl s t a).1 = none) :
    ∃ place', Simulates info (runAction vfsOpen ioctl s t a).2 t (k + 1) (tab.apply k a)
      place' := by
  cases a with
  | addClose fd p => exact ⟨place, (hs.close h ht fd).succ⟩
  | addDup2 fd newFd p =>
    simp only [runAction, SpawnTable.apply] at hok ⊢
    split
    · have hgetfd : (fileFcntl s t fd .getfd 0).2 = s := by
        unfold fileFcntl
        split <;> rfl
      split <;> rename_i heq <;> rw [heq] at hgetfd <;> exact ⟨place, hgetfd ▸ hs.succ⟩
    · rename_i hdiff
      rw [if_neg hdiff] at hok
      exact ⟨place, (spawnDup_simulates hs h ht hok).2.2.succ⟩
  | addOpen fd flags p =>
    simp only [runAction] at hok ⊢
    split
    · rename_i c s1 heq
      rw [heq] at hok
      cases hok
    rename_i d s1 heq
    simp only [heq] at hok
    obtain ⟨i, n, hn, hopened⟩ := fileOpen_opened h ht (by rw [heq])
    rw [heq] at hopened
    have hfile : info (.opened k) = ⟨some n, flags, 0⟩ := by
      rw [hinfo]
      simp only [SpawnAction.mapPath, openedFile, hn]
    rw [← hfile] at hopened
    have hopen := hs.open h ht hopened
    have hlow := hs.isLowest hopened.lowest fd
    have htouch := hopened.touches
    have ht1 : t ∈ s1.live := by rw [htouch.live]; exact ht
    split
    · rename_i hd
      refine ⟨Function.update place (.opened k) i, ?_⟩
      simp only [SpawnTable.apply, hlow.mpr hd, and_true]
      rwa [← hd, SpawnTable.set_natCast]
    rename_i hd
    rw [if_neg hd] at hok
    have hdup := (spawnDup_simulates hopen htouch.inv ht1 hok).2.2
    have hw := spawnDup_works htouch.inv ht1 d fd
    have hdone := hdup.close (hw.inv htouch.inv) (by rw [hw.live]; exact ht1) d
    rw [SpawnTable.get, if_pos (Int.natCast_nonneg d), Int.toNat_natCast, update_self, map_some,
      SpawnTable.open_dup_close hd (hs.eq_none.mp hopened.lowest.free)] at hdone
    refine ⟨Function.update place (.opened k) i, ?_⟩
    simp only [SpawnTable.apply, hlow, hd, and_false]
    exact hdone
  | addTcset fd p => exact ⟨place, hs.succ⟩
  | unknown p => cases hok

theorem runActions_works (r : SpawnReplies) (h : FileInv s []) (ht : t ∈ s.live)
    (actions : List (SpawnAction CopiedPath)) : Works t s (runActions r t k s actions).2 := by
  induction actions generalizing s k with
  | nil => exact .refl
  | cons a as ih =>
    have hw := runAction_works h ht (r.vfsOpen k) (r.ioctl k) a
    unfold runActions
    split
    · rename_i c s1 heq
      rw [heq] at hw
      exact hw
    · rename_i s1 heq
      rw [heq] at hw
      exact hw.trans (ih (hw.inv h) (by rw [hw.live]; exact ht))

theorem runActions_simulates (r : SpawnReplies) {actions : List (SpawnAction CopiedPath)}
    (hs : Simulates info s t k tab place) (h : FileInv s []) (ht : t ∈ s.live)
    (hinfo : ∀ j a, actions[j]? = some a →
      info (.opened (k + j)) = openedFile (r.vfsOpen (k + j)) (a.mapPath (·.text)))
    (hok : (runActions r t k s actions).1 = none) :
    ∃ k' place', Simulates info (runActions r t k s actions).2 t k'
      (SpawnTable.applyAll k tab actions) place' := by
  induction actions generalizing s k tab place with
  | nil => exact ⟨k, place, hs⟩
  | cons a as ih =>
    have hw := runAction_works h ht (r.vfsOpen k) (r.ioctl k) a
    unfold runActions at hok ⊢
    split
    · rename_i c s1 heq
      rw [heq] at hok
      cases hok
    rename_i s1 heq
    simp only [heq] at hok
    rw [heq] at hw
    have hfirst : info (.opened k) = openedFile (r.vfsOpen k) (a.mapPath (·.text)) :=
      hinfo 0 a rfl
    have hfirstOk : (runAction (r.vfsOpen k) (r.ioctl k) s t a).1 = none := by rw [heq]
    obtain ⟨place1, hs1⟩ := runAction_simulates hs h ht hfirst hfirstOk
    rw [heq] at hs1
    refine ih hs1 (hw.inv h) (by rw [hw.live]; exact ht) (fun j b hb => ?_) hok
    rw [add_right_comm, add_assoc]
    exact hinfo (j + 1) b hb

/-! ## The close-on-exec descriptors -/

/-- The table when the loop is at descriptor `m`. -/
def SpawnTable.dropBelow (tab : SpawnTable) (m : Nat) : SpawnTable :=
  fun d => if d < m then tab.dropCloexec d else tab d

theorem SpawnTable.dropBelow_succ (tab : SpawnTable) (m : Nat) :
    tab.dropBelow (m + 1) = Function.update (tab.dropBelow m) m (tab.dropCloexec m) := by
  funext d
  unfold dropBelow
  by_cases hd : d = m
  · subst hd
    simp
  · rw [update_of_ne hd]
    have hiff : d < m + 1 ↔ d < m := by omega
    simp only [hiff]

section

variable (h : FileInv s []) (ht : t ∈ s.live)
include h ht

theorem closeCloexecSlot_works (m : Nat) : Works t s (closeCloexecSlot t s m) := by
  unfold closeCloexecSlot
  split
  · split
    · exact .single (fileClose_touches h ht m)
    · exact .refl
  · exact .refl

theorem closeCloexecSlot_loop (m : Nat) :
    Works t s ((range m).foldl (closeCloexecSlot t) s) := by
  induction m with
  | zero => exact .refl
  | succ m ih =>
    rw [range_succ, foldl_append]
    exact ih.trans (closeCloexecSlot_works (ih.inv h) (by rw [ih.live]; exact ht) m)

theorem closeCloexec_works : Works t s (closeCloexec s t) :=
  closeCloexecSlot_loop h ht _

end

theorem closeCloexecSlot_simulates {m : Nat} (hs : Simulates info s t k (tab.dropBelow m) place)
    (h : FileInv s []) (ht : t ∈ s.live) :
    Simulates info (closeCloexecSlot t s m) t k (tab.dropBelow (m + 1)) place := by
  have hm : tab.dropBelow m m = tab m := if_neg (lt_irrefl m)
  have htable := hs.table m
  rw [hm] at htable
  rw [SpawnTable.dropBelow_succ]
  unfold closeCloexecSlot
  have hstay : tab.dropCloexec m = tab m →
      Simulates info s t k (Function.update (tab.dropBelow m) m (tab.dropCloexec m)) place := by
    intro hdrop
    rwa [hdrop, ← hm, update_eq_self]
  cases hx : tab m with
  | none =>
    rw [hx] at htable
    simp only [htable]
    exact hstay (by simp [SpawnTable.dropCloexec, hx])
  | some x =>
    rw [hx] at htable
    simp only [htable, map_some]
    cases hc : x.cloexec with
    | true =>
      have hdrop : tab.dropCloexec m = none := by simp [SpawnTable.dropCloexec, hx, hc]
      have hclosed := hs.close h ht m
      rwa [hdrop]
    | false => exact hstay (by simp [SpawnTable.dropCloexec, hx, hc])

theorem closeCloexec_simulates (hs : Simulates info s t k tab place) (h : FileInv s [])
    (ht : t ∈ s.live) :
    Simulates info (closeCloexec s t) t k tab.dropCloexec place := by
  have hloop : ∀ m, Simulates info ((range m).foldl (closeCloexecSlot t) s) t k
      (tab.dropBelow m) place := by
    intro m
    induction m with
    | zero => exact hs
    | succ m ih =>
      rw [range_succ, foldl_append]
      have hw := closeCloexecSlot_loop h ht m
      exact closeCloexecSlot_simulates ih (hw.inv h) (by rw [hw.live]; exact ht)
  have htab : tab.dropBelow (s.fd t).state = tab.dropCloexec := by
    funext d
    unfold SpawnTable.dropBelow
    split
    · rfl
    · rename_i hd
      have hnone := hs.eq_none.mp ((h.within t ht).2 d (Nat.le_of_not_lt hd))
      simp [SpawnTable.dropCloexec, hnone]
  rw [← htab]
  exact hloop _

/-- What holds while `fd_clone_func` is at descriptor `k`, with what it has
copied. -/
structure Copying (s s' : FileState) (t new k : Nat) : Prop extends Cloning s s' t new k where
  copied : ∀ d < k, (s'.fd new).table d = (s.fd t).table d
  others : ∀ t', t' ≠ new → s'.fd t' = s.fd t'
  kept : ∀ i, (s'.fileTable i).info = (s.fileTable i).info

theorem Copying.step {new : Nat} (h : Copying s s' t new k) (ht : t ∈ s.live)
    (hnew : new ∈ s.live) (hne : t ≠ new) (hk : k < (s.fd t).state) :
    Copying s (fdCloneSlot t new s' k) t new (k + 1) := by
  refine ⟨h.toCloning.step ht hnew hne hk, fun d hd => ?_, fun t' ht' => ?_, fun i => ?_⟩
  all_goals unfold fdCloneSlot; rw [h.source]
  · have hold : d ≠ k → (s'.fd new).table d = (s.fd t).table d := fun hdk =>
      h.copied d (by omega)
    split
    · rename_i hnone
      rw [setSlot_table]
      by_cases hdk : d = k
      · simp [hdk, hnone]
      · rw [update_of_ne hdk, hold hdk]
    rename_i v hv
    have hpos := h.inv.count_pos (d := k) (h.live ▸ ht)
      (by rw [h.source, hv])
    have hmax := h.inv.refs_lt v.fte
    have hcount := h.inv.counts v.fte
    rw [count_nil] at hcount
    rw [if_pos (show ((s'.setSlot new k (some v)).fileTable v.fte).count > 0 ∧
      ((s'.setSlot new k (some v)).fileTable v.fte).count < intMax from
        ⟨hpos, show (s'.fileTable v.fte).count < intMax by omega⟩)]
    show ((s'.setSlot new k (some v)).fd new).table d = _
    rw [setSlot_table]
    by_cases hdk : d = k
    · rw [hdk, update_self, hv]
    · rw [update_of_ne hdk, hold hdk]
  · rw [← h.others t' ht']
    split
    · exact update_of_ne ht' ..
    · simp only
      split
      · exact update_of_ne ht' ..
      · simp [FileState.setSlot, FileState.setFd, ht']
  · rw [← h.kept i]
    split
    · rfl
    rename_i v hv
    simp only
    split
    · by_cases hi : i = v.fte
      · subst hi
        simp [FileState.setEntry, FileState.setSlot, FileState.setFd, FileTableEntry.info]
      · simp [FileState.setEntry, FileState.setSlot, FileState.setFd, hi]
    · rfl

theorem taskCreate_copies {new : Nat} (h : FileInv s []) (ht : t ∈ s.live)
    (hnew : new ∉ s.live) (hlimit : s.live.length < taskStructLimit) :
    (∀ d, ((taskCreate s t new).fd new).table d = (s.fd t).table d) ∧
      (∀ t', t' ≠ new → (taskCreate s t new).fd t' = s.fd t') ∧
      ∀ i, ((taskCreate s t new).fileTable i).info = (s.fileTable i).info := by
  have hne : t ≠ new := fun heq => hnew (heq ▸ ht)
  have hinv := h.newTask hnew hlimit
  have habove := (h.within t ht).2
  unfold taskCreate
  obtain ⟨s1, hs1⟩ : ∃ s1, s1 = { s.setFd new ⟨0, fun _ => none⟩ with live := new :: s.live } :=
    ⟨_, rfl⟩
  rw [← hs1] at hinv ⊢
  have hlive : s1.live = new :: s.live := by rw [hs1]
  have hfdnew : s1.fd new = ⟨0, fun _ => none⟩ := by
    rw [hs1]
    exact update_self ..
  have hfd : ∀ t', t' ≠ new → s1.fd t' = s.fd t' := fun t' ht' => by
    rw [hs1]
    exact update_of_ne ht' ..
  have hentries : s1.fileTable = s.fileTable := by
    rw [hs1]
    rfl
  have ht1 : t ∈ s1.live := hlive ▸ mem_cons_of_mem _ ht
  have hnew1 : new ∈ s1.live := hlive ▸ mem_cons_self
  simp only
  split
  · unfold fdCloneFunc
    obtain ⟨s2, hs2⟩ : ∃ s2, s2 = s1.setFd new { s1.fd new with state := (s1.fd t).state } :=
      ⟨_, rfl⟩
    have hsource : s2.fd t = s1.fd t := by
      rw [hs2]
      exact update_of_ne hne ..
    have hstart : Copying s1 s2 t new 0 := by
      refine ⟨⟨?_, by rw [hs2]; rfl, hsource, by rw [hs2]; simp [FileState.setFd], fun d _ => ?_⟩,
        fun d hd => absurd hd (Nat.not_lt_zero d), fun t' ht' => ?_, fun i => by rw [hs2]; rfl⟩
      · rw [hs2]
        exact hinv.setState (by rw [hfdnew]; simp) (hinv.within t ht1).1
      · rw [hs2]
        simp [FileState.setFd, hfdnew]
      · rw [hs2]
        exact update_of_ne ht' ..
    have hloop : ∀ m, m ≤ (s1.fd t).state →
        Copying s1 ((range m).foldl (fdCloneSlot t new) s2) t new m := by
      intro m
      induction m with
      | zero => exact fun _ => hstart
      | succ m ih =>
        intro hm
        rw [range_succ, foldl_append]
        exact (ih (by omega)).step ht1 hnew1 hne (by omega)
    have hdone := hloop _ le_rfl
    simp only [← hs2, hsource]
    refine ⟨fun d => ?_, fun t' ht' => (hdone.others t' ht').trans (hfd t' ht'), fun i => ?_⟩
    · rw [← hfd t hne]
      rcases lt_or_ge d (s1.fd t).state with hlt | hge
      · exact hdone.copied d hlt
      · rw [hdone.ahead d hge, (hinv.within t ht1).2 d hge]
    · rw [hdone.kept, hentries]
  · rename_i h0
    rw [Decidable.not_not, hfd t hne] at h0
    refine ⟨fun d => ?_, hfd, fun i => by rw [hentries]⟩
    rw [hfdnew, habove d (by omega)]

theorem fdReleaseFunc_works (h : FileInv s []) (ht : t ∈ s.live) :
    Works t s (fdReleaseFunc s t) := by
  have hloop : ∀ m, Works t s
      ((range m).foldl (fun s (i : Nat) => (fileClose s t i).2) s) := by
    intro m
    induction m with
    | zero => exact .refl
    | succ m ih =>
      rw [range_succ, foldl_append]
      exact .tail ih (fileClose_touches (ih.inv h) (by rw [ih.live]; exact ht) m)
  exact hloop _

variable {t child d i : Nat}

/-- The entries, the tasks and the tables of the tasks of `s`. -/
structure Restored (s s' : FileState) : Prop where
  entries : s'.fileTable = s.fileTable
  live : s'.live = s.live
  tables : ∀ t ∈ s.live, (s'.fd t).table = (s.fd t).table

theorem Restored.refl (s : FileState) : Restored s s := ⟨rfl, rfl, fun _ _ => rfl⟩

theorem FileInv.exists_slot (h : FileInv s []) (hpos : 0 < (s.fileTable i).count) :
    ∃ t ∈ s.live, ∃ d v, (s.fd t).table d = some v ∧ v.fte = i := by
  by_contra hno
  have hcount := h.counts i
  have hrefs : s.refs i = 0 := by
    refine Slots.refs_eq_zero fun key hkey htarget => hno ?_
    simp only [FileState.slots, Finset.mem_product, List.mem_toFinset] at hkey
    obtain ⟨v, hv, hfte⟩ := Option.map_eq_some_iff.mp htarget
    exact ⟨key.1, hkey.1, key.2, v, hv, hfte⟩
  rw [hrefs, count_nil] at hcount
  omega

/-- Counts are numbers of descriptors, so the same descriptors have the same
counts; with the same files in use, the entries are the same. -/
theorem Restored.of_tables (h : FileInv s []) (h' : FileInv s' []) (hlive : s'.live = s.live)
    (htables : ∀ t ∈ s.live, (s'.fd t).table = (s.fd t).table)
    (hinfo : ∀ t ∈ s.live, ∀ d v, (s.fd t).table d = some v →
      (s'.fileTable v.fte).info = (s.fileTable v.fte).info) : Restored s s' := by
  refine ⟨funext fun i => ?_, hlive, htables⟩
  have hrefs : s'.refs i = s.refs i := by
    have hslots : s'.slots = s.slots := by simp [FileState.slots, hlive]
    unfold FileState.refs
    rw [hslots]
    refine Slots.refs_congr fun key hkey => ?_
    simp only [FileState.slots, Finset.mem_product, List.mem_toFinset] at hkey
    unfold FileState.target
    rw [htables key.1 hkey.1]
  have hcount : (s'.fileTable i).count = (s.fileTable i).count := by
    rw [h.counts i, h'.counts i, hrefs]
  rcases Nat.eq_zero_or_pos (s.fileTable i).count with h0 | hpos
  · rw [h.free i h0, h'.free i (hcount.trans h0)]
  obtain ⟨t, ht, d, v, hv, rfl⟩ := h.exists_slot hpos
  have hlock := (h.busy _ hpos).1
  have hlock' := (h'.busy v.fte (by omega)).1
  have hsame := hinfo t ht d v hv
  cases he : s.fileTable v.fte
  cases he' : s'.fileTable v.fte
  simp_all [FileTableEntry.info]

/-- **A child that ends** after any steps leaves the file table as it was. -/
theorem taskExit_restored (h : FileInv s []) (ht : t ∈ s.live) (hchild : child ∉ s.live)
    (hlimit : s.live.length < taskStructLimit) (hw : Works child (taskCreate s t child) s') :
    Restored s (taskExit s' child) := by
  obtain ⟨hinv, hlive⟩ := h.taskCreate ht hchild hlimit
  obtain ⟨-, hothers, hkept⟩ := taskCreate_copies h ht hchild hlimit
  have hinv' := hw.inv hinv
  have hlive' : s'.live = child :: s.live := hw.live.trans hlive
  have hexit := hinv'.taskExit (by rw [hlive']; exact mem_cons_self)
  -- the steps of the child go on until its last descriptor is closed
  obtain ⟨s1, hw1, hexit1⟩ : ∃ s1, Works child (taskCreate s t child) s1 ∧
      taskExit s' child = { s1 with live := s1.live.filter (· ≠ child) } := by
    unfold taskExit
    split
    · exact ⟨_, hw.trans (fdReleaseFunc_works hinv' (by rw [hlive']; simp)),
        rfl⟩
    · exact ⟨s', hw, rfl⟩
  have hne : ∀ t' ∈ s.live, t' ≠ child := fun t' ht' heq => hchild (heq ▸ ht')
  refine .of_tables h hexit ?_ (fun t' ht' => ?_) fun t' ht' d v hv => ?_
  · rw [hexit1]
    rw [hw1.live, hlive, filter_cons_of_neg (by simp)]
    exact filter_eq_self.mpr fun t' ht' => by simpa using hne t' ht'
  · rw [hexit1]
    rw [hw1.others (hne t' ht'), hothers t' (hne t' ht')]
  · rw [hexit1]
    rw [hw1.kept hinv (hlive ▸ mem_cons_of_mem _ ht') (hne t' ht')
      (by rw [hothers t' (hne t' ht'), hv]), hkept]

/-! ## The copied options -/

/-- Since `h0` the blocks `ps` were allocated and nothing was freed. -/
structure HeapHolds (h0 h : SpawnHeap) (ps : List Nat) : Prop where
  blocks : ∃ qs, qs.Perm ps ∧ h.blocks = qs ++ h0.blocks
  bad : h.bad = h0.bad
  next : h0.next ≤ h.next
  fresh : ∀ p ∈ ps, h0.next ≤ p

namespace HeapHolds

variable {h0 h : SpawnHeap} {ps : List Nat} {p : Nat}

theorem refl (h : SpawnHeap) : HeapHolds h h [] :=
  ⟨⟨[], .refl _, rfl⟩, rfl, le_rfl, fun _ hp => (by cases hp)⟩

theorem perm {ps' : List Nat} (hh : HeapHolds h0 h ps) (hp : ps.Perm ps') :
    HeapHolds h0 h ps' := by
  obtain ⟨qs, hqs, hblocks⟩ := hh.blocks
  exact ⟨⟨qs, hqs.trans hp, hblocks⟩, hh.bad, hh.next, fun p hmem =>
    hh.fresh p (hp.mem_iff.mpr hmem)⟩

theorem malloc (hh : HeapHolds h0 h ps) : HeapHolds h0 h.malloc (h.next :: ps) := by
  obtain ⟨qs, hqs, hblocks⟩ := hh.blocks
  refine ⟨⟨h.next :: qs, hqs.cons _, ?_⟩, hh.bad, Nat.le_succ_of_le hh.next, fun p hp => ?_⟩
  · simp [SpawnHeap.malloc, hblocks]
  · rcases mem_cons.mp hp with rfl | hp
    · exact hh.next
    · exact hh.fresh p hp

theorem free (hh : HeapHolds h0 h (p :: ps)) : HeapHolds h0 (h.free p) ps := by
  obtain ⟨qs, hqs, hblocks⟩ := hh.blocks
  have hmem : p ∈ qs := hqs.mem_iff.mpr mem_cons_self
  refine ⟨⟨qs.erase p, ?_, ?_⟩, ?_, hh.next, fun q hq => hh.fresh q (.tail _ hq)⟩
  · have herase := hqs.erase p
    rwa [erase_cons_head] at herase
  · simp only [SpawnHeap.free, hblocks]
    exact erase_append_left _ hmem
  · simp [SpawnHeap.free, hblocks, hmem, hh.bad]

theorem free_old (hh : HeapHolds h0 h ps) (hold : p ∈ h0.blocks) (hlt : p < h0.next) :
    HeapHolds (h0.free p) (h.free p) ps := by
  obtain ⟨qs, hqs, hblocks⟩ := hh.blocks
  have hnot : p ∉ qs := fun hmem =>
    lt_irrefl p (lt_of_lt_of_le hlt (hh.fresh p (hqs.mem_iff.mp hmem)))
  refine ⟨⟨qs, hqs, ?_⟩, ?_, hh.next, hh.fresh⟩
  · simp only [SpawnHeap.free, hblocks]
    exact erase_append_right _ hnot
  · simp [SpawnHeap.free, hblocks, hold, hh.bad]

theorem nil (hh : HeapHolds h0 h []) : h.blocks = h0.blocks ∧ h.bad = h0.bad := by
  obtain ⟨qs, hqs, hblocks⟩ := hh.blocks
  rw [hqs.eq_nil] at hblocks
  exact ⟨hblocks, hh.bad⟩

end HeapHolds

def pathBlocks (a : SpawnAction CopiedPath) : List Nat := (a.path.map CopiedPath.block).toList

/-- The blocks that `release_actions` frees, in its order. -/
def TaskArg.blocks (ta : TaskArg) : List Nat :=
  match ta.actions with
  | none => []
  | some (block, actions) => actions.flatMap pathBlocks ++ [block]

variable {h0 h : SpawnHeap} {ps : List Nat}

theorem copyPath_holds (hh : HeapHolds h0 h ps) (p : UserPath) :
    (∀ c, (copyPath h p).1 = .error c → HeapHolds h0 (copyPath h p).2 ps) ∧
      ∀ q, (copyPath h p).1 = .ok q → HeapHolds h0 (copyPath h p).2 (q.block :: ps) := by
  unfold copyPath
  split
  · exact ⟨fun _ _ => hh, fun q hq => (by cases hq)⟩
  split
  · exact ⟨fun _ _ => hh, fun q hq => (by cases hq)⟩
  · refine ⟨fun c hc => (by cases hc), fun q hq => ?_⟩
    obtain rfl := Except.ok.inj hq
    exact hh.malloc

theorem copyPathIf_holds (hh : HeapHolds h0 h ps) (p : Option UserPath) :
    (∀ c, (copyPathIf h p).1 = .error c → HeapHolds h0 (copyPathIf h p).2 ps) ∧
      ∀ q, (copyPathIf h p).1 = .ok q →
        HeapHolds h0 (copyPathIf h p).2 ((q.map CopiedPath.block).toList ++ ps) := by
  cases p with
  | none =>
    refine ⟨fun c hc => (by cases hc), fun q hq => ?_⟩
    obtain rfl := Except.ok.inj hq
    exact hh
  | some p =>
    obtain ⟨hfail, hdone⟩ := copyPath_holds hh p
    simp only [copyPathIf]
    cases hr : (copyPath h p).1 with
    | error c => exact ⟨fun _ _ => hfail c hr, fun q hq => (by cases hq)⟩
    | ok q =>
      refine ⟨fun c hc => (by cases hc), fun q' hq => ?_⟩
      obtain rfl := Except.ok.inj hq
      exact hdone q hr

/-- What copying an action promises, of its answer and the heap. -/
def Copies (h0 : SpawnHeap) (ps : List Nat)
    (r : Except SpawnCode (SpawnAction CopiedPath) × SpawnHeap) : Prop :=
  (∀ c, r.1 = .error c → HeapHolds h0 r.2 ps) ∧
    ∀ b, r.1 = .ok b → HeapHolds h0 r.2 (pathBlocks b ++ ps)

section

variable (hh : HeapHolds h0 h ps)
include hh

theorem Copies.of_path (p : Option UserPath) (f : Option CopiedPath → SpawnAction CopiedPath)
    (hf : ∀ q, (f q).path = q) : Copies h0 ps ((copyPathIf h p).1.map f, (copyPathIf h p).2) := by
  obtain ⟨hfail, hdone⟩ := copyPathIf_holds hh p
  cases hr : (copyPathIf h p).1 with
  | error c => exact ⟨fun _ _ => hfail c hr, fun b hb => (by cases hb)⟩
  | ok q =>
    refine ⟨fun c hc => (by cases hc), fun b hb => ?_⟩
    obtain rfl := Except.ok.inj hb
    rw [pathBlocks, hf]
    exact hdone q hr

theorem copyAction_holds (a : SpawnAction UserPath) : Copies h0 ps (copyAction h a) := by
  cases a with
  | addClose fd p | addDup2 fd newFd p | addTcset fd p | unknown p =>
    exact .of_path hh p _ fun _ => rfl
  | addOpen fd flags p =>
    obtain ⟨hfail, hdone⟩ := copyPath_holds hh p
    simp only [copyAction]
    cases hr : (copyPath h p).1 with
    | error c => exact ⟨fun _ _ => hfail c hr, fun b hb => (by cases hb)⟩
    | ok q =>
      refine ⟨fun c hc => (by cases hc), fun b hb => ?_⟩
      obtain rfl := Except.ok.inj hb
      exact hdone q hr

theorem copyActions_holds (as : List (SpawnAction UserPath)) :
    HeapHolds h0 (copyActions h as).2.2 ((copyActions h as).2.1.flatMap pathBlocks ++ ps) := by
  induction as generalizing h ps with
  | nil => exact hh
  | cons a as ih =>
    have hcopy := copyAction_holds hh a
    unfold copyActions
    split
    · rename_i c h1 heq
      rw [heq] at hcopy
      exact hcopy.1 c rfl
    rename_i b h1 heq
    rw [heq] at hcopy
    refine (ih (hcopy.2 b rfl)).perm ?_
    simp only [flatMap_cons, append_assoc]
    rw [← append_assoc, ← append_assoc]
    exact List.Perm.append_right ps perm_append_comm

end

theorem handleOptions_holds (h : SpawnHeap) (argState : Nat) (o : SpawnOptions) :
    HeapHolds h (handleOptions h ⟨argState, none, none⟩ o).2.2
      (handleOptions h ⟨argState, none, none⟩ o).2.1.blocks := by
  have hactions : ∀ a, HeapHolds h (handleActions h ⟨argState, none, none⟩ a).2.2
      (handleActions h ⟨argState, none, none⟩ a).2.1.blocks := by
    intro a
    unfold handleActions
    split
    · exact .refl h
    split
    · exact .refl h
    split
    · exact (HeapHolds.refl h).malloc
    · exact copyActions_holds (HeapHolds.refl h).malloc a.actions
  have hattr : ∀ ta x, (handleAttributes ta x).2.blocks = ta.blocks := by
    intro ta x
    unfold handleAttributes
    split
    · rfl
    · split <;> rfl
  unfold handleOptions
  split
  · exact .refl h
  split
  · exact .refl h
  cases o.actions with
  | none =>
    rw [hattr]
    exact .refl h
  | some a =>
    have ha := hactions a
    simp only
    split
    · rename_i c ta h1 heq
      rw [heq] at ha
      exact ha
    · rename_i ta h1 heq
      rw [heq] at ha
      simp only [hattr]
      exact ha

theorem releaseActions_holds {ta : TaskArg} (hh : HeapHolds h0 h ta.blocks) :
    HeapHolds h0 (releaseActions h ta).2 [] := by
  unfold TaskArg.blocks at hh
  unfold releaseActions
  cases hta : ta.actions with
  | none =>
    rw [hta] at hh
    exact hh
  | some ba =>
    obtain ⟨block, actions⟩ := ba
    rw [hta] at hh
    simp only at hh ⊢
    refine HeapHolds.free ?_
    clear hta
    induction actions generalizing h with
    | nil => exact hh
    | cons a as ih =>
      refine ih ?_
      rw [flatMap_cons, append_assoc, pathBlocks] at hh
      unfold releasePath
      cases hp : a.path with
      | none =>
        rw [hp] at hh
        exact hh
      | some p =>
        rw [hp] at hh
        exact hh.free

/-! ## The actions that were asked for -/

def requested (o : Option SpawnOptions) : List (SpawnAction String) :=
  match o.bind SpawnOptions.actions with
  | none => []
  | some a => a.actions.map (SpawnAction.mapPath (·.text))

theorem SpawnTable.applyAll_mapPath {π ρ : Type} (f : π → ρ) (k : Nat) (tab : SpawnTable)
    (as : List (SpawnAction π)) :
    tab.applyAll k (as.map (SpawnAction.mapPath f)) = tab.applyAll k as := by
  induction as generalizing k tab with
  | nil => rfl
  | cons a as ih =>
    have happly : tab.apply k (a.mapPath f) = tab.apply k a := by cases a <;> rfl
    rw [map_cons, applyAll, applyAll, happly, ih]

theorem copyPath_text {p : UserPath} {q : CopiedPath} (hq : (copyPath h p).1 = .ok q) :
    q.text = p.text := by
  unfold copyPath at hq
  split at hq
  · cases hq
  · split at hq
    · cases hq
    · rw [← Except.ok.inj hq]

theorem copyPathIf_text {p : Option UserPath} {q : Option CopiedPath}
    (hq : (copyPathIf h p).1 = .ok q) : q.map (·.text) = p.map (·.text) := by
  cases p with
  | none =>
    rw [← Except.ok.inj hq]
    rfl
  | some p =>
    simp only [copyPathIf] at hq
    cases hr : (copyPath h p).1 with
    | error c =>
      rw [hr] at hq
      cases hq
    | ok r =>
      rw [hr] at hq
      simp [← Except.ok.inj hq, copyPath_text hr]

theorem mapPath_of_path {p : Option UserPath}
    {f : Option CopiedPath → SpawnAction CopiedPath} {b : SpawnAction CopiedPath}
    {g : Option String → SpawnAction String} (hf : ∀ q, (f q).mapPath (·.text) = g (q.map (·.text)))
    (hb : (copyPathIf h p).1.map f = .ok b) : b.mapPath (·.text) = g (p.map (·.text)) := by
  cases hr : (copyPathIf h p).1 with
  | error c =>
    rw [hr] at hb
    cases hb
  | ok q =>
    rw [hr] at hb
    rw [← Except.ok.inj hb, hf, copyPathIf_text hr]

theorem copyAction_mapPath {a : SpawnAction UserPath} {b : SpawnAction CopiedPath}
    (hb : (copyAction h a).1 = .ok b) : b.mapPath (·.text) = a.mapPath (·.text) := by
  cases a with
  | addClose | addTcset => exact mapPath_of_path (fun _ => rfl) hb
  | addDup2 fd newFd p => exact mapPath_of_path (g := .addDup2 fd newFd) (fun _ => rfl) hb
  | unknown p => exact mapPath_of_path (g := .unknown) (fun _ => rfl) hb
  | addOpen fd flags p =>
    simp only [copyAction] at hb
    cases hr : (copyPath h p).1 with
    | error c =>
      rw [hr] at hb
      cases hb
    | ok q =>
      rw [hr] at hb
      rw [← Except.ok.inj hb]
      show SpawnAction.addOpen fd flags q.text = SpawnAction.addOpen fd flags p.text
      rw [copyPath_text hr]

theorem copyActions_mapPath {as : List (SpawnAction UserPath)} (hok : (copyActions h as).1 = none) :
    (copyActions h as).2.1.map (SpawnAction.mapPath (·.text)) =
      as.map (SpawnAction.mapPath (·.text)) := by
  induction as generalizing h with
  | nil => rfl
  | cons a as ih =>
    unfold copyActions at hok ⊢
    split at hok
    · cases hok
    · rename_i b h1 heq
      have hb := copyAction_mapPath (a := a) (by rw [heq])
      simp [hb, ih hok]

theorem handleAttributes_actionList (ta : TaskArg) (x : Option (Bool × BitVec 32)) :
    (handleAttributes ta x).2.actionList = ta.actionList ∧
      (handleAttributes ta x).2.argState = ta.argState := by
  unfold handleAttributes
  split
  · simp
  · split <;> exact ⟨rfl, rfl⟩

theorem handleActions_spec (h : SpawnHeap) (ta : TaskArg) (a : UserActions) :
    (handleActions h ta a).2.1.argState = ta.argState ∧
      ((handleActions h ta a).1 = none →
        (handleActions h ta a).2.1.actionList.map (SpawnAction.mapPath (·.text)) =
          a.actions.map (SpawnAction.mapPath (·.text))) := by
  unfold handleActions
  split
  · simp
  split
  · exact ⟨rfl, nofun⟩
  split
  · simp
  · exact ⟨rfl, fun hok => copyActions_mapPath hok⟩

theorem handleOptions_spec (h : SpawnHeap) (argState : Nat) (o : SpawnOptions) :
    (handleOptions h ⟨argState, none, none⟩ o).2.1.argState = argState ∧
      ((handleOptions h ⟨argState, none, none⟩ o).1 = none →
        (handleOptions h ⟨argState, none, none⟩ o).2.1.actionList.map
          (SpawnAction.mapPath (·.text)) = requested (some o)) := by
  unfold handleOptions requested
  split
  · simp
  split
  · exact ⟨rfl, fun h => by cases h⟩
  simp only [bind_some]
  cases o.actions with
  | none =>
    obtain ⟨h1, h2⟩ := handleAttributes_actionList ⟨argState, none, none⟩ o.attrp
    refine ⟨h2, fun _ => ?_⟩
    rw [h1]
    rfl
  | some a =>
    obtain ⟨harg, hlist⟩ := handleActions_spec h ⟨argState, none, none⟩ a
    simp only
    split
    · rename_i c ta h1 heq
      rw [heq] at harg
      exact ⟨harg, fun h => by cases h⟩
    rename_i ta h1 heq
    rw [heq] at harg hlist
    obtain ⟨h2, h3⟩ := handleAttributes_actionList ta o.attrp
    refine ⟨h3.trans harg, fun _ => ?_⟩
    rw [h2]
    exact hlist rfl

variable {r : SpawnReplies}

theorem newTask_works (hinv : FileInv s []) (ht : t ∈ s.live) (r : SpawnReplies) (ta : TaskArg)
    (h : SpawnHeap) : Works t s (newTask r ta t s h).2.1 := by
  have hw := runActions_works (k := 0) r hinv ht ta.actionList
  unfold newTask
  split
  · exact .refl
  split
  · rename_i c s1 heq
    rw [heq] at hw
    exact hw
  rename_i s1 heq
  rw [heq] at hw
  split
  · exact hw
  · exact hw.trans (closeCloexec_works (hw.inv hinv) (by rw [hw.live]; exact ht))

theorem newTask_heap (r : SpawnReplies) (ta : TaskArg) (t : Nat) (s : FileState)
    (h : SpawnHeap) :
    ((newTask r ta t s h).1 = none → (newTask r ta t s h).2.2 = h.free ta.argState) ∧
      ∀ c, (newTask r ta t s h).1 = some c → (newTask r ta t s h).2.2 = h := by
  unfold newTask
  split
  · simp
  split
  · exact ⟨fun hno => (by cases hno), fun _ _ => rfl⟩
  split
  · simp
  · exact ⟨fun _ => rfl, fun c hno => by cases hno⟩

theorem newTask_simulates (ta : TaskArg) {info : SpawnFile → FileInfo} {tab : SpawnTable}
    {place : SpawnFile → Nat} (hs : Simulates info s t 0 tab place) (hinv : FileInv s [])
    (ht : t ∈ s.live)
    (hinfo : ∀ j a, ta.actionList[j]? = some a →
      info (.opened j) = openedFile (r.vfsOpen j) (a.mapPath (·.text)))
    (hok : (newTask r ta t s h).1 = none) :
    ∃ k' place', Simulates info (newTask r ta t s h).2.1 t k'
      (tab.applyAll 0 ta.actionList).dropCloexec place' := by
  have hw := runActions_works (k := 0) r hinv ht ta.actionList
  unfold newTask at hok ⊢
  split at hok
  · cases hok
  split at hok
  · cases hok
  rename_i s1 heq
  rw [heq] at hw
  obtain ⟨k', place', hs1⟩ := runActions_simulates r hs hinv ht
    (fun j a hj => by rw [zero_add]; exact hinfo j a hj) (by rw [heq])
  rw [heq] at hs1
  split at hok
  · cases hok
  exact ⟨k', place', closeCloexec_simulates hs1 (hw.inv hinv) (by rw [hw.live]; exact ht)⟩

/-! ## The parent -/

/-- Where a spawn starts: the parent runs, the child's structure is free,
and the caller has made the argument block. -/
structure SpawnStart (i : SpawnInput) (s : FileState) (h : SpawnHeap) : Prop where
  inv : FileInv s []
  parent : i.parent ∈ s.live
  child : i.child ∉ s.live
  limit : s.live.length < taskStructLimit
  arg : i.argState ∈ h.blocks ∧ i.argState < h.next

/-- The table that the actions ask for, without its close-on-exec
descriptors. -/
def spawnTable (i : SpawnInput) (s : FileState) : SpawnTable :=
  ((SpawnTable.ofParent (s.fd i.parent).table).applyAll 0 (requested i.options)).dropCloexec

def spawnInfo (i : SpawnInput) (s : FileState) : SpawnFile → FileInfo
  | .inherited j => (s.fileTable j).info
  | .opened k => ((requested i.options)[k]?.map (openedFile (i.replies.vfsOpen k))).getD ⟨none, 0, 0⟩

/-- What `spawn_task` has done when it returns `0`. -/
structure SpawnSucceeds (i : SpawnInput) (s : FileState) (h : SpawnHeap) (e : Spawned) : Prop where
  table : ∃ k place, Simulates (spawnInfo i s) e.files i.child k (spawnTable i s) place
  counts : FileTableOk e.files
  others : ∀ t ∈ s.live, (e.files.fd t).table = (s.fd t).table
  live : e.files.live = i.child :: s.live
  blocks : e.heap.blocks = h.blocks.erase i.argState
  bad : e.heap.bad = h.bad

/-- What `spawn_task` has done when it returns an error. -/
structure SpawnFails (s : FileState) (h : SpawnHeap) (e : Spawned) : Prop where
  restored : Restored s e.files
  blocks : e.heap.blocks = h.blocks
  bad : e.heap.bad = h.bad

def copyPlace : SpawnFile → Nat
  | .inherited j => j
  | .opened _ => 0

theorem taskCreate_simulates {i : SpawnInput} (hstart : SpawnStart i s h) :
    Simulates (spawnInfo i s) (taskCreate s i.parent i.child) i.child 0
      (SpawnTable.ofParent (s.fd i.parent).table) copyPlace := by
  obtain ⟨hcopy, -, hkept⟩ :=
    taskCreate_copies hstart.inv hstart.parent hstart.child hstart.limit
  have hfile : ∀ d x, SpawnTable.ofParent (s.fd i.parent).table d = some x →
      ∃ v : Slot, x = ⟨.inherited v.fte, v.cloexec⟩ := by
    intro d x hx
    obtain ⟨v, -, rfl⟩ := map_eq_some_iff.mp hx
    exact ⟨v, rfl⟩
  refine ⟨fun d => ?_, fun d x hx => ?_, fun d e x y hx hy hxy => ?_, fun _ => rfl,
    fun d x j hx hj => ?_⟩
  · rw [hcopy, SpawnTable.ofParent, Option.map_map]
    cases (s.fd i.parent).table d <;> rfl
  · obtain ⟨v, rfl⟩ := hfile d x hx
    exact hkept v.fte
  · obtain ⟨v, rfl⟩ := hfile d x hx
    obtain ⟨w, rfl⟩ := hfile e y hy
    exact congrArg SpawnFile.inherited hxy
  · obtain ⟨v, rfl⟩ := hfile d x hx
    cases hj

theorem spawnTaskArg_spec (i : SpawnInput) (h : SpawnHeap) :
    HeapHolds h (spawnTaskArg i h).2.2 (spawnTaskArg i h).2.1.blocks ∧
      (spawnTaskArg i h).2.1.argState = i.argState ∧
      ((spawnTaskArg i h).1 = none →
        (spawnTaskArg i h).2.1.actionList.map (SpawnAction.mapPath (·.text)) =
          requested i.options) := by
  unfold spawnTaskArg
  cases i.options with
  | none => exact ⟨.refl h, rfl, fun _ => rfl⟩
  | some o =>
    obtain ⟨harg, hlist⟩ := handleOptions_spec h i.argState o
    exact ⟨handleOptions_holds h i.argState o, harg, hlist⟩

theorem spawnTask_fails {i : SpawnInput} {c : SpawnCode} (hstart : SpawnStart i s h)
    (hc : (spawnTask i s h).retval = some c) : SpawnFails s h (spawnTask i s h) := by
  obtain ⟨hholds, harg, -⟩ := spawnTaskArg_spec i h
  have hlive : i.child ∈ (taskCreate s i.parent i.child).live := by
    rw [(hstart.inv.taskCreate hstart.parent hstart.child hstart.limit).2]
    simp
  have hinv := (hstart.inv.taskCreate hstart.parent hstart.child hstart.limit).1
  unfold spawnTask at hc ⊢
  split at hc
  · rename_i c' ta h1 heq
    rw [heq] at hholds
    obtain ⟨hblocks, hbad⟩ := (releaseActions_holds hholds).nil
    exact ⟨.refl s, hblocks, hbad⟩
  rename_i ta h1 heq
  rw [heq] at hholds harg
  split at hc
  · rename_i hmemory
    rw [if_pos hmemory]
    obtain ⟨hblocks, hbad⟩ := (releaseActions_holds hholds).nil
    exact ⟨.refl s, hblocks, hbad⟩
  rename_i hmemory
  rw [if_neg hmemory]
  have hw := newTask_works hinv hlive i.replies ta h1
  have hheap := (newTask_heap i.replies ta i.child
    (taskCreate s i.parent i.child) h1).2
  split at hc
  · cases hc
  rename_i c' s2 h2 hnew
  rw [hnew] at hw hheap
  obtain rfl : h2 = h1 := hheap c' rfl
  obtain ⟨hblocks, hbad⟩ := (releaseActions_holds hholds).nil
  exact ⟨taskExit_restored hstart.inv hstart.parent hstart.child hstart.limit hw,
    hblocks, hbad⟩

theorem spawnTask_succeeds {i : SpawnInput} (hstart : SpawnStart i s h)
    (hok : (spawnTask i s h).retval = none) : SpawnSucceeds i s h (spawnTask i s h) := by
  obtain ⟨hholds, harg, hlist⟩ := spawnTaskArg_spec i h
  obtain ⟨hinv, hlive⟩ := hstart.inv.taskCreate hstart.parent hstart.child hstart.limit
  have hchild : i.child ∈ (taskCreate s i.parent i.child).live := by
    rw [hlive]
    simp
  obtain ⟨-, hothers, -⟩ :=
    taskCreate_copies hstart.inv hstart.parent hstart.child hstart.limit
  unfold spawnTask at hok ⊢
  split at hok
  · cases hok
  rename_i ta h1 heq
  rw [heq] at hholds harg hlist
  split at hok
  · cases hok
  rename_i hmemory
  rw [if_neg hmemory]
  have hlist : ta.actionList.map (SpawnAction.mapPath (·.text)) = requested i.options :=
    hlist rfl
  have hw := newTask_works hinv hchild i.replies ta h1
  have hheap := (newTask_heap i.replies ta i.child
    (taskCreate s i.parent i.child) h1).1
  have hsim := newTask_simulates ta (h := h1)
    (taskCreate_simulates hstart) hinv hchild fun j a hj => by
      simp only [spawnInfo]
      rw [← hlist, getElem?_map, hj]
      rfl
  split at hok
  · rename_i s2 h2 hnew
    rw [hnew] at hw hheap hsim
    obtain ⟨k, place, hsim⟩ := hsim rfl
    have hfree : h2 = h1.free i.argState := by
      rw [show h2 = h1.free ta.argState from hheap rfl, harg]
    have hleft : HeapHolds (h.free i.argState) (h1.free i.argState) ta.blocks :=
      hholds.free_old hstart.arg.1 hstart.arg.2
    obtain ⟨hblocks, hbad⟩ := (releaseActions_holds hleft).nil
    refine ⟨⟨k, place, ?_⟩, (hw.inv hinv).ok, fun t' ht' => ?_, hw.live.trans hlive, ?_, ?_⟩
    · rw [spawnTable, ← hlist, SpawnTable.applyAll_mapPath]
      exact hsim
    · have hne : t' ≠ i.child := fun heq' => hstart.child (heq' ▸ ht')
      rw [hw.others hne, hothers t' hne]
    · rwa [hfree]
    · rw [hfree, hbad]
      simp [SpawnHeap.free, hstart.arg.1]
  · cases hok

/-- What the system call leaves behind. An answer is the new task, which has
the table of the actions; an error leaves the file table, its counts and the
tables of the tasks as they were. Either way every block it took from the heap
is given back, and none of them twice. -/
structure SpawnAnswered (c : SpawnSyscall) (s : FileState) (h : SpawnHeap)
    (answer : Except SpawnErrno Nat × FileState × SpawnHeap) : Prop where
  child : ∀ id, answer.1 = .ok id → id = c.input.child ∧ answer.2.1.live = id :: s.live
  table : ∀ id, answer.1 = .ok id → ∃ k place,
    Simulates (spawnInfo c.input s) answer.2.1 id k (spawnTable c.input s) place
  others : ∀ id, answer.1 = .ok id → FileTableOk answer.2.1 ∧
    ∀ t ∈ s.live, (answer.2.1.fd t).table = (s.fd t).table
  failed : ∀ e, answer.1 = .error e → Restored s answer.2.1
  blocks : answer.2.2.blocks = h.blocks
  bad : answer.2.2.bad = h.bad

theorem SpawnAnswered.refused {c : SpawnSyscall} (e : SpawnErrno) :
    SpawnAnswered c s h (.error e, s, h) :=
  ⟨nofun, nofun, nofun, fun _ _ => .refl s, rfl, rfl⟩

/-- **The spawn system call**: whatever the path, the arguments and the
options are, and wherever it fails, it answers with the new task or leaves
all as it was. -/
theorem dancySyscallSpawn_answered {c : SpawnSyscall} (hinv : FileInv s [])
    (hparent : c.input.parent ∈ s.live) (hchild : c.input.child ∉ s.live)
    (hlimit : s.live.length < taskStructLimit) :
    SpawnAnswered c s h (dancySyscallSpawn c s h) := by
  have hstart : SpawnStart { c.input with argState := h.next } s h.malloc :=
    ⟨hinv, hparent, hchild, hlimit, mem_cons_self, Nat.lt_succ_self _⟩
  have hmalloc : h.malloc.blocks.erase h.next = h.blocks := erase_cons_head ..
  unfold dancySyscallSpawn
  split
  · exact .refused _
  split
  iterate 4 exact .refused _
  split
  · exact .refused _
  simp only
  split
  · rename_i hok
    have hdone := spawnTask_succeeds hstart hok
    refine ⟨?_, ?_, fun _ _ => ⟨hdone.counts, hdone.others⟩, nofun, hdone.blocks.trans hmalloc,
      hdone.bad⟩
    all_goals
      rintro id ⟨⟩
    · exact ⟨rfl, hdone.live⟩
    · exact hdone.table
  · rename_i e hc
    have hdone := spawnTask_fails hstart hc
    refine ⟨nofun, nofun, nofun, fun _ _ => hdone.restored, ?_, ?_⟩
    · show (spawnTask _ s h.malloc).heap.blocks.erase h.next = _
      rw [hdone.blocks, hmalloc]
    · simp only [SpawnHeap.free, hdone.blocks, hdone.bad]
      simp [SpawnHeap.malloc]

/-! ## Reaping the child -/

/-- A call of `spawn_task` with the events of its wait, which takes place
when the child was made and failed. -/
inductive SpawnCall (i : SpawnInput) (s : FileState) (h : SpawnHeap) :
    WaitSys → List WaitEvent → WaitSys → Prop where
  | returned (w : WaitSys) :
      (spawnTask i s h).retval = none ∨ (spawnTask i s h).created = false →
      SpawnCall i s h w [] w
  | waited {w w' : WaitSys} {es : List WaitEvent} (k : Nat) (c : SpawnCode) :
      (spawnTask i s h).retval = some c → (spawnTask i s h).created = true →
      w.pc = .sample (waitFor i.child) → ChildAt w.tasks i.child k false →
      Run (Guarded InCall WaitStep) w es w' → w'.pc = .idle → SpawnCall i s h w es w'

/-- What a spawn promises: the table and the counts when it succeeds; when
it fails, that all is as before and that the child has been reaped. -/
structure SpawnDone (i : SpawnInput) (s : FileState) (h : SpawnHeap) (w' : WaitSys) : Prop where
  succeeds : (spawnTask i s h).retval = none → SpawnSucceeds i s h (spawnTask i s h)
  fails : ∀ c, (spawnTask i s h).retval = some c → SpawnFails s h (spawnTask i s h)
  reaped : ∀ c, (spawnTask i s h).retval = some c → (spawnTask i s h).created = true →
    ∀ t ∈ w'.tasks, t.own = true → t.id = i.child → t.detached = true

/-- **Spawning**: a call keeps its promise if and only if no step of its
wait finds the failed child running and a signal pending. -/
theorem spawnTask_iff {i : SpawnInput} {w w' : WaitSys} {es : List WaitEvent}
    (hstart : SpawnStart i s h) (hcall : SpawnCall i s h w es w') :
    SpawnDone i s h w' ↔ Run (Guarded Calm WaitStep) w es w' := by
  cases hcall with
  | returned hreturned =>
    refine ⟨fun _ => .nil _, fun _ => ⟨spawnTask_succeeds hstart, fun c hc =>
      spawnTask_fails hstart hc, fun c hc hcreated => ?_⟩⟩
    rcases hreturned with hok | hno
    · rw [hok] at hc
      cases hc
    · rw [hno] at hcreated
      cases hcreated
  | waited k c hc hcreated hpc hchild hrun hidle =>
    have hiff := Dancy.Tasks.detached_iff_calm hpc hchild hrun hidle
    refine ⟨fun hdone => hiff.mp (hdone.reaped c hc hcreated), fun hcalm => ?_⟩
    exact ⟨spawnTask_succeeds hstart, fun c hc => spawnTask_fails hstart hc,
      fun _ _ _ => hiff.mpr hcalm⟩

def idleReplies : SpawnReplies :=
  ⟨none, fun _ _ _ _ => .ok ⟨7, 4⟩, fun _ => none, none, none, none, none, none⟩

/-- Task 1 spawns task 2 and asks for a copy of a descriptor it does not
have. -/
def badDescriptor : SpawnInput :=
  ⟨1, 2, 0, some ⟨true, true, some ⟨true, true, [.addDup2 5 6 none]⟩, none⟩, true, idleReplies⟩

def argBlockOnly : SpawnHeap := ⟨1, [0], false⟩

/-- The wait for task 2, which is at `exit` of `task_exit`. -/
def waitForTwo (stopped : Bool) (exit : Dancy.Tasks.ExitPc) : WaitSys :=
  ⟨[⟨1, 2, 1, true, 0, stopped, false, exit⟩], 8, 0, 0, .sample (waitFor 2), none, [], 2, 0, 0, []⟩

theorem badDescriptor_starts : SpawnStart badDescriptor oneTask argBlockOnly := by
  have hfiles : NoFiles oneTask :=
    ⟨fun _ => rfl, fun _ _ => ⟨rfl, fun _ => rfl⟩, rfl, rfl, by decide⟩
  exact ⟨hfiles.inv, by decide, by decide, by decide, by decide⟩

/-- A call that spawns task 2, and one whose action fails in the child. -/
theorem dancySyscallSpawn_answered_two :
    let c : SpawnSyscall := ⟨true, .regular, none, ⟨1, 2, 0, none, true, idleReplies⟩⟩
    let bad : SpawnSyscall := ⟨true, .regular, none, badDescriptor⟩
    (dancySyscallSpawn c oneTask argBlockOnly).1.toOption = some 2 ∧
      SpawnAnswered c oneTask argBlockOnly (dancySyscallSpawn c oneTask argBlockOnly) ∧
      (dancySyscallSpawn bad oneTask argBlockOnly).1.toOption = none ∧
      SpawnAnswered bad oneTask argBlockOnly (dancySyscallSpawn bad oneTask argBlockOnly) :=
  ⟨by decide, dancySyscallSpawn_answered badDescriptor_starts.inv (by decide) (by decide) (by decide),
    by decide, dancySyscallSpawn_answered badDescriptor_starts.inv (by decide) (by decide) (by decide)⟩

theorem waitForTwo_child (stopped : Bool) (exit : Dancy.Tasks.ExitPc) :
    ChildAt (waitForTwo stopped exit).tasks 2 0 false := by
  refine ⟨by decide, ⟨_, rfl, rfl, rfl, rfl⟩, fun i t hi _ _ => ?_⟩
  cases i with
  | zero => rfl
  | succ i => cases hi

/-- The child has stopped when the parent looks at it. -/
theorem spawnTask_iff_stopped : SpawnDone badDescriptor oneTask argBlockOnly
    ((Dancy.Tasks.parentStep · false)^[10] (waitForTwo true (.counted 0 1))) := by
  have hcalm := Dancy.Tasks.calm_parents (waitForTwo true (.counted 0 1)) 10 (by decide)
  exact (spawnTask_iff badDescriptor_starts (.waited 0 .argument (by decide) (by decide) rfl
    (waitForTwo_child _ _) (Dancy.Tasks.Calm.inCall hcalm) (by decide))).mpr hcalm

/-- The child is running when the parent looks at it, and a signal is
pending. -/
theorem spawnTask_interrupted :
    SpawnStart badDescriptor oneTask argBlockOnly ∧
      (let w' := Dancy.Tasks.parentStep
        ((Dancy.Tasks.parentStep · false)^[6] (waitForTwo false .running)) true
      SpawnCall badDescriptor oneTask argBlockOnly (waitForTwo false .running)
        (replicate 6 (.parent false) ++ [.parent true]) w' ∧
      ¬ SpawnDone badDescriptor oneTask argBlockOnly w') := by
  have hcalm := Dancy.Tasks.calm_parents (waitForTwo false .running) 6 (by decide)
  refine ⟨badDescriptor_starts, .waited 0 .argument (by decide) (by decide) rfl
    (waitForTwo_child _ _) ?_ (by decide), fun hdone => ?_⟩
  · exact (Dancy.Tasks.Calm.inCall hcalm).snoc
      ⟨by unfold InCall; decide, Dancy.Tasks.WaitStep.parent _ true⟩
  · have hdet := hdone.reaped .argument (by decide) (by decide) ⟨1, 2, 1, true, 0, false, false, .running⟩
      (by decide) rfl rfl
    cases hdet

end Dancy.Files
