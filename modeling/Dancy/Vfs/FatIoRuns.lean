import Dancy.Vfs.FatIo

/-!
# Isolation of FAT nodes over whole runs

An open descriptor of the instance belongs to the node at its index, and
that node got its descriptor from this very instance. A new instance begins
with closed descriptors, so a node of an older one reaches nothing.
-/

namespace Dancy.FatVfs

open Dancy.Lib List Function Option

variable {io io' : FatIo} {inst : FatInstance} {n k i : Nat} {r : Option NodeCode}

/-- An access through a descriptor is to the instance the node belongs to. -/
def Access.Own : Access → Prop
  | .descriptor number gen _ => gen = number
  | .close number gen => gen = number
  | .opening .. => True
  | .removal .. => True

structure Base (io : FatIo) : Prop where
  fd : ∀ k n, io.nodeArray k = some n → (io.node n).fd = some k
  next : ∀ k n, io.nodeArray k = some n → n < io.next
  count : ∀ k n, io.nodeArray k = some n → k < io.nodeCount
  gen : ∀ k n, io.nodeArray k = some n → (io.node n).gen ≤ io.created
  root : ∀ k n k' n', io.nodeArray k = some n → io.nodeArray k' = some n' →
    (io.node n).path = rootPath → (io.node n').path = rootPath → n = n'
  log : ∀ a ∈ io.log, a.Own
  fault : io.fault = false

/-- What holds of the instance while the mutex is held. -/
structure Bound (io : FatIo) (inst : FatInstance) : Prop where
  number : inst.number = io.created
  opened : ∀ k, inst.opened k = true → ∃ n, io.nodeArray k = some n ∧ (io.node n).gen = io.created
  marked : ∀ k n, io.nodeArray k = some n →
    ((io.node n).mediaChanged = false ↔ (io.node n).gen = io.created)
  rooted : ∀ k n, io.nodeArray k = some n → (io.node n).path = rootPath →
    (io.node n).gen = io.created

/-- After `enter_fat`. -/
structure Inside (io : FatIo) : Prop extends Base io where
  bound : ∃ inst, io.inst = some inst ∧ Bound io inst

structure Outside (io : FatIo) : Prop extends Base io where
  bound : io.mediaChanged = false → ∃ inst, io.inst = some inst ∧ Bound io inst
  unbound : io.mediaChanged = true → io.inst = none ∧ ∀ k n, io.nodeArray k = some n →
    (io.node n).mediaChanged = true ∨ (io.node n).path = rootPath

structure Kept (io io' : FatIo) : Prop where
  nodeArray : io'.nodeArray = io.nodeArray
  nodeCount : io'.nodeCount = io.nodeCount
  node : io'.node = io.node
  next : io'.next = io.next
  created : io'.created = io.created
  freed : io'.freed = io.freed

theorem Kept.refl (io : FatIo) : Kept io io := ⟨rfl, rfl, rfl, rfl, rfl, rfl⟩

variable {io'' io1 : FatIo} {name path : List UInt8} {owners : List (List UInt8)}

theorem Kept.trans (h : Kept io io') (h' : Kept io' io'') : Kept io io'' :=
  ⟨h'.nodeArray.trans h.nodeArray, h'.nodeCount.trans h.nodeCount, h'.node.trans h.node,
    h'.next.trans h.next, h'.created.trans h.created, h'.freed.trans h.freed⟩

theorem Base.kept (h : Base io) (hk : Kept io io') (hlog : ∀ a ∈ io'.log, a.Own)
    (hfault : io'.fault = false) : Base io' := by
  refine ⟨?_, ?_, ?_, ?_, ?_, hlog, hfault⟩
  · rw [hk.nodeArray, hk.node]
    exact h.fd
  · rw [hk.nodeArray, hk.next]
    exact h.next
  · rw [hk.nodeArray, hk.nodeCount]
    exact h.count
  · rw [hk.nodeArray, hk.node, hk.created]
    exact h.gen
  · rw [hk.nodeArray, hk.node]
    exact h.root

theorem Bound.kept {inst' : FatInstance} (h : Bound io inst) (hk : Kept io io')
    (hnumber : inst'.number = inst.number)
    (hopened : ∀ k, inst'.opened k = true → ∃ n, io.nodeArray k = some n ∧
      (io.node n).gen = io.created) : Bound io' inst' := by
  refine ⟨?_, ?_, ?_, ?_⟩
  · rw [hk.created, hnumber]
    exact h.number
  · rwa [hk.nodeArray, hk.node, hk.created]
  · rw [hk.nodeArray, hk.node, hk.created]
    exact h.marked
  · rw [hk.nodeArray, hk.node, hk.created]
    exact h.rooted

/-! ## Calls of the driver -/

/-- A call keeps the state of the mutex and the nodes. -/
structure Stays (io io' : FatIo) : Prop where
  inside : Inside io'
  kept : Kept io io'

theorem Stays.trans (h : Stays io io') (h' : Stays io' io'') : Stays io io'' :=
  ⟨h'.inside, h.kept.trans h'.kept⟩

theorem Inside.stays (h : Inside io) : Stays io io := ⟨h, .refl io⟩

theorem answered_kept (io : FatIo) (a : Option Access) : Kept io (io.answered a) :=
  ⟨rfl, rfl, rfl, rfl, rfl, rfl⟩

theorem mem_answered {a : Access} {a' : Option Access}
    (h : ∀ a ∈ io.log, a.Own) (ha : ∀ a ∈ a', Access.Own a) :
    a ∈ (io.answered a').log → a.Own := by
  intro hmem
  rcases mem_append.mp hmem with hmem | hmem
  · exact ha a (mem_toList.mp hmem)
  · exact h a hmem

section

variable (h : Inside io) (hn : io.nodeArray k = some n)
include h hn

theorem fatCall_stays (call : DriverCall) : Stays io (fatCall io n call).2.2 := by
  obtain ⟨inst, hinst, hbound⟩ := h.bound
  unfold fatCall
  rw [hinst, h.fd k n hn]
  simp only
  split
  · rename_i hopen
    obtain ⟨n', hn', hgen⟩ := hbound.opened k hopen
    obtain rfl : n = n' := some.inj (hn.symm.trans hn')
    have hkept := answered_kept io (some (.descriptor inst.number (io.node n).gen call))
    refine ⟨⟨h.toBase.kept hkept (fun a => mem_answered h.log ?_) h.fault, inst, hinst, ?_⟩, hkept⟩
    · rintro a' ha'
      obtain rfl := some.inj ha'
      exact hgen.trans hbound.number.symm
    · exact hbound.kept hkept rfl hbound.opened
  · exact h.stays

theorem fatCall_of (heq : fatCall io n call = (e, reply, io')) : Stays io io' := by
  have hcall := fatCall_stays h hn call
  rwa [heq] at hcall

theorem fatCall_stale (hgen : (io.node n).gen ≠ io.created) (call : DriverCall) :
    fatCall io n call = (some .invalidParameters, io.reply, io) := by
  obtain ⟨inst, hinst, hbound⟩ := h.bound
  unfold fatCall
  rw [hinst, h.fd k n hn]
  simp only
  rw [if_neg]
  intro hopen
  obtain ⟨n', hn', hgen'⟩ := hbound.opened k hopen
  obtain rfl : n = n' := some.inj (hn.symm.trans hn')
  exact hgen hgen'

theorem fatOpen_stays (hgen : (io.node n).gen = io.created) (parent : Nat) (name : List UInt8)
    (mode : OpenMode) : Stays io (fatOpen io parent n name mode).2 := by
  obtain ⟨inst, hinst, hbound⟩ := h.bound
  unfold fatOpen
  rw [hinst, h.fd k n hn]
  simp only
  split
  · exact h.stays
  have hkept := answered_kept io
    (some (.opening inst.number (io.node parent).gen name mode))
  have hlog : ∀ a ∈ (io.answered (some (.opening inst.number (io.node parent).gen name
      mode))).log, a.Own := by
    refine fun a => mem_answered h.log fun a' ha' => ?_
    obtain rfl := some.inj ha'
    exact trivial
  split
  · exact ⟨⟨h.toBase.kept hkept hlog h.fault, inst, hinst,
      hbound.kept hkept rfl hbound.opened⟩, hkept⟩
  have hkept' : Kept io { io.answered (some (.opening inst.number
      (io.node parent).gen name mode)) with
    inst := some { inst with opened := update inst.opened k true } } :=
    hkept.trans ⟨rfl, rfl, rfl, rfl, rfl, rfl⟩
  refine ⟨⟨h.toBase.kept hkept' hlog h.fault, _, rfl,
    hbound.kept hkept' rfl fun k' hk' => ?_⟩, hkept'⟩
  rcases eq_or_ne k' k with rfl | hne
  · exact ⟨n, hn, hgen⟩
  · dsimp only at hk'
    rw [update_of_ne hne] at hk'
    exact hbound.opened k' hk'

theorem fatClose_stays (hgen : (io.node n).gen = io.created) : Stays io (fatClose io n) := by
  obtain ⟨inst, hinst, hbound⟩ := h.bound
  unfold fatClose
  rw [hinst, h.fd k n hn]
  refine ⟨⟨h.toBase.kept ⟨rfl, rfl, rfl, rfl, rfl, rfl⟩ (fun a ha => ?_) h.fault, _, rfl,
    hbound.kept ⟨rfl, rfl, rfl, rfl, rfl, rfl⟩ rfl fun k' hk' => ?_⟩, ⟨rfl, rfl, rfl, rfl, rfl, rfl⟩⟩
  · rcases mem_cons.mp ha with rfl | ha
    · exact hgen.trans hbound.number.symm
    · exact h.log a ha
  rcases eq_or_ne k' k with rfl | hne
  · dsimp only at hk'
    rw [update_self] at hk'
    cases hk'
  · dsimp only at hk'
    rw [update_of_ne hne] at hk'
    exact hbound.opened k' hk'

end

theorem fatRemove_stays (h : Inside io) (n : Nat) (name : List UInt8) :
    Stays io (fatRemove io n name).2 := by
  obtain ⟨inst, hinst, hbound⟩ := h.bound
  unfold fatRemove
  rw [hinst]
  have hkept := answered_kept io (some (.removal inst.number (io.node n).gen name))
  refine ⟨⟨h.toBase.kept hkept (fun a => mem_answered h.log fun a' ha' => ?_) h.fault, inst,
    hinst, hbound.kept hkept rfl hbound.opened⟩, hkept⟩
  obtain rfl := some.inj ha'
  exact trivial

theorem devSync_stays (h : Inside io) : Stays io (devSync io).2 := by
  obtain ⟨inst, hinst, hbound⟩ := h.bound
  have hkept : Kept io (devSync io).2 := ⟨rfl, rfl, rfl, rfl, rfl, rfl⟩
  exact ⟨⟨h.toBase.kept hkept h.log h.fault, inst, hinst,
    hbound.kept hkept rfl hbound.opened⟩, hkept⟩

/-! ## Entering and leaving -/

/-- What entering and leaving do to the nodes: marks and the instance of
the root node may change. -/
structure Same (io io' : FatIo) : Prop where
  nodeArray : io'.nodeArray = io.nodeArray
  nodeCount : io'.nodeCount = io.nodeCount
  next : io'.next = io.next
  freed : io'.freed = io.freed
  fd : ∀ n, (io'.node n).fd = (io.node n).fd
  path : ∀ n, (io'.node n).path = (io.node n).path

theorem Kept.same (h : Kept io io') : Same io io' :=
  ⟨h.nodeArray, h.nodeCount, h.next, h.freed, fun n => by rw [h.node], fun n => by rw [h.node]⟩

theorem Same.trans (h : Same io io') (h' : Same io' io'') : Same io io'' :=
  ⟨h'.nodeArray.trans h.nodeArray, h'.nodeCount.trans h.nodeCount, h'.next.trans h.next,
    h'.freed.trans h.freed, fun n => (h'.fd n).trans (h.fd n), fun n => (h'.path n).trans (h.path n)⟩

theorem leaveFat_same (io : FatIo) : Same io (leaveFat io) := by
  unfold leaveFat
  split
  · refine ⟨rfl, rfl, rfl, rfl, fun n => ?_, fun n => ?_⟩
    all_goals
      dsimp only
      split <;> rfl
  · exact (Kept.refl io).same

theorem leaveFat_outside (h : Inside io) : Outside (leaveFat io) := by
  have hsame := leaveFat_same io
  unfold leaveFat at hsame ⊢
  split
  · rename_i hchanged
    rw [if_pos hchanged] at hsame
    have hgen : ∀ n, (if (range io.nodeCount).any fun i => io.nodeArray i = some n then
        { io.node n with mediaChanged := true } else io.node n).gen = (io.node n).gen := by
      intro n
      split <;> rfl
    refine ⟨⟨fun k n hk => ?_, h.next, h.count, fun k n hk => ?_, fun k n k' n' hk hk' hp hp' => ?_,
      h.log, h.fault⟩, fun hno => ?_, fun _ => ⟨rfl, fun k n hk => .inl ?_⟩⟩
    · exact (hsame.fd n).trans (h.fd k n hk)
    · exact le_trans (le_of_eq (hgen n)) (h.gen k n hk)
    · exact h.root k n k' n' hk hk' ((hsame.path n).symm.trans hp) ((hsame.path n').symm.trans hp')
    · rw [hchanged] at hno
      cases hno
    · dsimp only at hk ⊢
      rw [if_pos]
      rw [List.any_eq_true]
      exact ⟨k, mem_range.mpr (h.count k n hk), decide_eq_true hk⟩
  · rename_i hno
    exact ⟨h.toBase, fun _ => h.bound, fun hc => absurd hc hno⟩

/-- What `enter_fat` does: only the root node may change, and only the root
directory is opened. -/
structure Entered (io io' : FatIo) (r : Option NodeCode) : Prop where
  same : Same io io'
  node : ∀ n, (io.node n).path ≠ rootPath → io'.node n = io.node n
  created_le : io.created ≤ io'.created
  created_lt : io.mediaChanged = true → r = none → io.created < io'.created
  log : ∀ a ∈ io'.log, a ∈ io.log ∨ ∃ number, a = .opening number number rootPath .rbPlus
  inside : r = none → Inside io'
  outside : r ≠ none → Outside io'
  changed : r ≠ none → io'.mediaChanged = true

theorem findRoot_some : ∀ left i, findRoot io left i = some n →
    ∃ k, io.nodeArray k = some n ∧ (io.node n).path = rootPath := by
  intro left
  induction left with
  | zero =>
    intro i h
    cases h
  | succ left ih =>
    intro i h
    rw [findRoot] at h
    split at h
    · rename_i n' hn'
      split at h
      · rename_i hpath
        obtain rfl : n' = n := some.inj h
        exact ⟨i, hn', hpath⟩
      · exact ih _ h
    · exact ih _ h

theorem findRoot_none : ∀ left i, findRoot io left i = none →
    ∀ k n, i ≤ k → k < i + left → io.nodeArray k = some n → (io.node n).path ≠ rootPath := by
  intro left
  induction left with
  | zero =>
    omega
  | succ left ih =>
    intro i h k n h1 h2 hn
    rw [findRoot] at h
    split at h
    · rename_i n' hn'
      split at h
      · cases h
      rename_i hpath
      rcases eq_or_lt_of_le h1 with rfl | hlt
      · obtain rfl : n' = n := some.inj (hn'.symm.trans hn)
        exact hpath
      · exact ih _ h k n hlt (by omega) hn
    · rename_i hnone
      rcases eq_or_lt_of_le h1 with rfl | hlt
      · rw [hnone] at hn
        cases hn
      · exact ih _ h k n hlt (by omega) hn

/-- A new instance, before the root node is bound to it. -/
structure Fresh (io io1 : FatIo) : Prop where
  inst : io1.inst = some ⟨io.created + 1, fun _ => false⟩
  created : io1.created = io.created + 1
  nodeArray : io1.nodeArray = io.nodeArray
  nodeCount : io1.nodeCount = io.nodeCount
  node : io1.node = io.node
  next : io1.next = io.next
  freed : io1.freed = io.freed
  log : io1.log = io.log
  fault : io1.fault = io.fault

theorem Fresh.inside (h : Outside io) (hchanged : io.mediaChanged = true) (hf : Fresh io io1)
    (hroot : ∀ k n, io.nodeArray k = some n → (io.node n).path ≠ rootPath) :
    Inside io1 := by
  refine ⟨⟨?_, ?_, ?_, ?_, ?_, ?_, hf.fault.trans h.fault⟩, _, hf.inst, hf.created.symm,
    fun k hk => ?_, fun k n hn => ?_, fun k n hn hp => ?_⟩
  · rw [hf.nodeArray, hf.node]
    exact h.fd
  · rw [hf.nodeArray, hf.next]
    exact h.next
  · rw [hf.nodeArray, hf.nodeCount]
    exact h.count
  · rw [hf.nodeArray, hf.node, hf.created]
    exact fun k n hn => Nat.le_succ_of_le (h.gen k n hn)
  · rw [hf.nodeArray, hf.node]
    exact h.root
  · rw [hf.log]
    exact h.log
  · cases hk
  · rw [hf.nodeArray] at hn
    rw [hf.node, hf.created]
    have hgen := h.gen k n hn
    rcases (h.unbound hchanged).2 k n hn with hmark | hp
    · rw [hmark]
      exact ⟨fun h => absurd h (by decide), fun h => by omega⟩
    · exact absurd hp (hroot k n hn)
  · rw [hf.nodeArray] at hn
    rw [hf.node] at hp
    exact absurd hp (hroot k n hn)

theorem Fresh.bind_root (h : Outside io) (hchanged : io.mediaChanged = true) (hf : Fresh io io1)
    (hn : io.nodeArray k = some n) (hp : (io.node n).path = rootPath) :
    Inside (io1.setNode n { io1.node n with mediaChanged := false, gen := io1.created }) := by
  have hself : ∀ n', n' ≠ n → (io1.setNode n { io1.node n with
      mediaChanged := false, gen := io1.created }).node n' = io.node n' := by
    intro n' hne
    rw [← hf.node]
    exact update_of_ne hne _ _
  have hroot : (io1.setNode n { io1.node n with
      mediaChanged := false, gen := io1.created }).node n =
        { io.node n with mediaChanged := false, gen := io1.created } := by
    rw [← hf.node]
    exact update_self _ _ _
  obtain ⟨io2, hio2⟩ : ∃ io2, io2 = io1.setNode n { io1.node n with
      mediaChanged := false, gen := io1.created } := ⟨_, rfl⟩
  have harray : io2.nodeArray = io.nodeArray := by
    rw [hio2]
    exact hf.nodeArray
  have hcreated : io2.created = io.created + 1 := by
    rw [hio2]
    exact hf.created
  rw [← hio2] at hself hroot ⊢
  rw [hf.created] at hroot
  have hpath : ∀ n', (io2.node n').path = (io.node n').path := by
    intro n'
    rcases eq_or_ne n' n with rfl | hne
    · rw [hroot]
    · rw [hself n' hne]
  refine ⟨⟨fun k' n' hn' => ?_, ?_, ?_, fun k' n' hn' => ?_, ?_, ?_, ?_⟩,
    ⟨io.created + 1, fun _ => false⟩, ?_, hcreated.symm, fun k' hk' => ?_, fun k' n' hn' => ?_,
    fun k' n' hn' hp' => ?_⟩
  · rw [harray] at hn'
    rcases eq_or_ne n' n with rfl | hne
    · rw [hroot]
      exact h.fd k' n' hn'
    · rw [hself n' hne]
      exact h.fd k' n' hn'
  · rw [harray, hio2]
    exact hf.next.symm ▸ h.next
  · rw [harray, hio2]
    exact hf.nodeCount.symm ▸ h.count
  · rw [harray] at hn'
    rw [hcreated]
    rcases eq_or_ne n' n with rfl | hne
    · exact hroot ▸ le_refl (io.created + 1)
    · rw [hself n' hne]
      exact Nat.le_succ_of_le (h.gen k' n' hn')
  · intro k1 n1 k2 n2 h1 h2 hp1 hp2
    rw [harray] at h1 h2
    rw [hpath] at hp1 hp2
    exact h.root k1 n1 k2 n2 h1 h2 hp1 hp2
  · rw [hio2]
    exact hf.log.symm ▸ h.log
  · rw [hio2]
    exact hf.fault.trans h.fault
  · rw [hio2]
    exact hf.inst
  · cases hk'
  · rw [harray] at hn'
    rw [hcreated]
    rcases eq_or_ne n' n with rfl | hne
    · rw [hroot]
      simp
    rw [hself n' hne]
    have hgen := h.gen k' n' hn'
    rcases (h.unbound hchanged).2 k' n' hn' with hmark | hp'
    · rw [hmark]
      exact ⟨fun h => absurd h (by decide), fun h => by omega⟩
    · exact absurd (h.root k' n' k n hn' hn hp' hp) hne
  · rw [harray] at hn'
    rw [hpath] at hp'
    obtain rfl := h.root k' n' k n hn' hn hp' hp
    rw [hroot, hcreated]

theorem fatOpen_log (h : io.inst = some inst) (parent n : Nat) (name : List UInt8)
    (mode : OpenMode) : ∀ a ∈ (fatOpen io parent n name mode).2.log, a ∈ io.log ∨
      a = .opening inst.number (io.node parent).gen name mode := by
  intro a ha
  unfold fatOpen at ha
  rw [h] at ha
  simp only at ha
  split at ha
  · exact .inl ha
  split at ha
  · exact .inl ha
  have hmem : a ∈ (io.answered (some (.opening inst.number (io.node parent).gen name
      mode))).log := by
    split at ha <;> exact ha
  rcases mem_cons.mp hmem with rfl | hmem
  · exact .inr rfl
  · exact .inl hmem

theorem outside_of_failure (hbase : Base io) (hmark : ∀ k n, io.nodeArray k = some n →
    (io.node n).mediaChanged = true ∨ (io.node n).path = rootPath) :
    Outside { io with inst := none, mediaChanged := true } := by
  refine ⟨⟨hbase.fd, hbase.next, hbase.count, hbase.gen, hbase.root, hbase.log, hbase.fault⟩,
    fun h => ?_, fun _ => ⟨rfl, hmark⟩⟩
  cases h

theorem bindRoot_entered (h : Outside io) (hchanged : io.mediaChanged = true)
    (hfresh : Fresh io io1) : Entered io (bindRoot io1).2 (bindRoot io1).1 := by
  have hmark := (h.unbound hchanged).2
  have hle : io.created < io1.created := by
    rw [hfresh.created]
    omega
  unfold bindRoot
  cases hroot : findRoot io1 io1.nodeCount 0 with
  | none =>
    have hno : ∀ k n, io.nodeArray k = some n → (io.node n).path ≠ rootPath := by
      intro k n hn
      have hlt := h.count k n hn
      rw [← hfresh.nodeArray] at hn
      rw [← hfresh.nodeCount] at hlt
      rw [← hfresh.node]
      exact findRoot_none _ _ hroot k n (Nat.zero_le _) (by omega) hn
    refine ⟨⟨hfresh.nodeArray, hfresh.nodeCount, hfresh.next, hfresh.freed,
      fun n => congrArg (fun f => (f n).fd) hfresh.node,
      fun n => congrArg (fun f => (f n).path) hfresh.node⟩,
      fun n _ => congrFun hfresh.node n, le_of_lt hle, fun _ _ => hle, fun a ha => ?_,
      fun _ => hfresh.inside h hchanged hno, fun hr => absurd rfl hr, fun hr => absurd rfl hr⟩
    exact .inl (hfresh.log ▸ ha)
  | some n =>
    obtain ⟨k, hn, hp⟩ := findRoot_some _ _ hroot
    rw [hfresh.nodeArray] at hn
    rw [hfresh.node] at hp
    have hinside := hfresh.bind_root h hchanged hn hp
    obtain ⟨io2, hio2⟩ : ∃ io2, io2 = io1.setNode n { io1.node n with
      mediaChanged := false, gen := io1.created } := ⟨_, rfl⟩
    rw [← hio2] at hinside
    simp only [← hio2]
    have harray2 : io2.nodeArray = io.nodeArray := by
      rw [hio2]
      exact hfresh.nodeArray
    have hnode : ∀ n', n' ≠ n → io2.node n' = io.node n' := by
      intro n' hne
      rw [hio2, ← hfresh.node]
      exact update_of_ne hne _ _
    have hnoden : io2.node n = { io.node n with mediaChanged := false, gen := io1.created } := by
      rw [hio2, ← hfresh.node]
      exact update_self _ _ _
    have hcreated2 : io2.created = io1.created := by rw [hio2]; rfl
    have hsame2 : Same io io2 := by
      refine ⟨harray2, ?_, ?_, ?_, fun n' => ?_, fun n' => ?_⟩
      · rw [hio2]
        exact hfresh.nodeCount
      · rw [hio2]
        exact hfresh.next
      · rw [hio2]
        exact hfresh.freed
      all_goals
        rcases eq_or_ne n' n with rfl | hne
        · rw [hnoden]
        · rw [hnode n' hne]
    have hstays := fatOpen_stays hinside (harray2 ▸ hn)
      (by rw [hnoden, hcreated2]) n rootPath .rbPlus
    obtain ⟨inst, hinst, hbound⟩ := hinside.bound
    have hlog := fatOpen_log hinst n n rootPath .rbPlus
    obtain ⟨io3, hio3⟩ : ∃ io3, io3 = (fatOpen io2 n n rootPath .rbPlus).2 := ⟨_, rfl⟩
    rw [← hio3] at hstays hlog
    have hsame3 : Same io io3 := hsame2.trans hstays.kept.same
    have hnode3 : ∀ n', (io.node n').path ≠ rootPath → io3.node n' = io.node n' := by
      intro n' hne
      rw [hstays.kept.node]
      refine hnode n' fun heq => ?_
      rw [heq] at hne
      exact hne hp
    have hlt3 : io.created < io3.created := by
      rwa [hstays.kept.created, hcreated2]
    have hlog3 : ∀ a ∈ io3.log, a ∈ io.log ∨
        ∃ number, a = .opening number number rootPath .rbPlus := by
      intro a ha
      rcases hlog a ha with ha | rfl
      · refine .inl ?_
        rw [hio2] at ha
        exact hfresh.log ▸ ha
      · refine .inr ⟨inst.number, ?_⟩
        rw [hnoden, hbound.number, hcreated2]
    split
    · rename_i e io4 heq
      rw [heq] at hio3
      obtain rfl : io3 = io4 := hio3
      have hout := outside_of_failure hstays.inside.toBase fun k' n' hn' => by
        rw [hstays.kept.nodeArray, harray2] at hn'
        rw [hstays.kept.node]
        rcases eq_or_ne n' n with rfl | hne
        · rw [hnoden]
          exact .inr hp
        · rw [hnode n' hne]
          exact hmark k' n' hn'
      refine ⟨⟨hsame3.nodeArray, hsame3.nodeCount, hsame3.next, hsame3.freed, hsame3.fd,
        hsame3.path⟩, hnode3, le_of_lt hlt3, fun _ hr => ?_, hlog3, fun hr => ?_,
        fun _ => hout, fun _ => rfl⟩
      · cases hr
      · cases hr
    · rename_i io4 heq
      rw [heq] at hio3
      obtain rfl : io3 = io4 := hio3
      exact ⟨hsame3, hnode3, le_of_lt hlt3, fun _ _ => hlt3, hlog3,
        fun _ => hstays.inside, fun hr => absurd rfl hr, fun hr => absurd rfl hr⟩

theorem enterChanged_entered (h : Outside io) (hchanged : io.mediaChanged = true) :
    Entered io (enterChanged io).2 (enterChanged io).1 := by
  obtain ⟨io0, hio0⟩ : ∃ io0 : FatIo, io0 = { io with inst := none, mediaChanged := false } :=
    ⟨_, rfl⟩
  unfold enterChanged
  rw [← hio0]
  cases hreply : io0.reply.error with
  | some e =>
    have hcreate : fatCreate io0 = (some e, io0.answered none) := by
      unfold fatCreate
      rw [hreply]
    rw [hcreate]
    have hbase : Base (io0.answered none) := by
      rw [hio0]
      exact ⟨h.fd, h.next, h.count, h.gen, h.root, h.log, h.fault⟩
    have hout := outside_of_failure hbase (by rw [hio0]; exact (h.unbound hchanged).2)
    refine ⟨?_, fun n _ => ?_, ?_, fun _ hr => ?_, fun a ha => ?_, fun hr => ?_, fun _ => hout,
      fun _ => rfl⟩
    · rw [hio0]
      exact ⟨rfl, rfl, rfl, rfl, fun _ => rfl, fun _ => rfl⟩
    · rw [hio0]
      rfl
    · rw [hio0]
      exact le_rfl
    · cases hr
    · rw [hio0] at ha
      exact .inl ha
    · cases hr
  | none =>
    have hcreate : fatCreate io0 = (none, { io0.answered none with
        inst := some ⟨io0.created + 1, fun _ => false⟩
        created := io0.created + 1 }) := by
      unfold fatCreate
      rw [hreply]
    rw [hcreate]
    refine bindRoot_entered h hchanged ?_
    rw [hio0]
    exact ⟨rfl, rfl, rfl, rfl, rfl, rfl, rfl, rfl, rfl⟩

theorem enterFat_entered (h : Outside io) : Entered io (enterFat io).2 (enterFat io).1 := by
  unfold enterFat
  split
  · rename_i hchanged
    exact enterChanged_entered h hchanged
  rename_i hno
  have hfalse := Bool.eq_false_iff.mpr hno
  exact ⟨(Kept.refl io).same, fun _ _ => rfl, le_rfl, fun hc => absurd hc hno,
    fun a ha => .inl ha, fun _ => ⟨h.toBase, h.bound hfalse⟩, fun hr => absurd rfl hr,
    fun hr => absurd rfl hr⟩

theorem entered_of {r : Option NodeCode} (h : Outside io) (heq : enterFat io = (r, io')) :
    Entered io io' r := by
  have hentered := enterFat_entered h
  rwa [heq] at hentered

/-! ## Nodes that come and go -/

/-- The same state, but for counts, directory flags and nodes without an
index. -/
structure Alike (io io' : FatIo) : Prop where
  nodeArray : io'.nodeArray = io.nodeArray
  nodeCount : io'.nodeCount = io.nodeCount
  next : io.next ≤ io'.next
  created : io'.created = io.created
  inst : io'.inst = io.inst
  mediaChanged : io'.mediaChanged = io.mediaChanged
  log : io'.log = io.log
  fault : io'.fault = io.fault
  fd : ∀ k n, io.nodeArray k = some n → (io'.node n).fd = (io.node n).fd
  path : ∀ k n, io.nodeArray k = some n → (io'.node n).path = (io.node n).path
  marked : ∀ k n, io.nodeArray k = some n → (io'.node n).mediaChanged = (io.node n).mediaChanged
  gen : ∀ k n, io.nodeArray k = some n → (io'.node n).gen = (io.node n).gen

theorem Base.alike (h : Base io) (ha : Alike io io') : Base io' := by
  refine ⟨?_, ?_, ?_, ?_, ?_, ?_, ha.fault.trans h.fault⟩
  · rw [ha.nodeArray]
    exact fun k n hn => (ha.fd k n hn).trans (h.fd k n hn)
  · rw [ha.nodeArray]
    exact fun k n hn => lt_of_lt_of_le (h.next k n hn) ha.next
  · rw [ha.nodeArray, ha.nodeCount]
    exact h.count
  · rw [ha.nodeArray, ha.created]
    intro k n hn
    rw [ha.gen k n hn]
    exact h.gen k n hn
  · rw [ha.nodeArray]
    intro k n k' n' hn hn' hp hp'
    rw [ha.path k n hn] at hp
    rw [ha.path k' n' hn'] at hp'
    exact h.root k n k' n' hn hn' hp hp'
  · rw [ha.log]
    exact h.log

theorem Bound.alike (h : Bound io inst) (ha : Alike io io') : Bound io' inst := by
  refine ⟨h.number.trans ha.created.symm, fun k hk => ?_, fun k n hn => ?_, fun k n hn hp => ?_⟩
  · obtain ⟨n, hn, hgen⟩ := h.opened k hk
    refine ⟨n, ?_, ?_⟩
    · rwa [ha.nodeArray]
    · rw [ha.gen k n hn, ha.created]
      exact hgen
  · rw [ha.nodeArray] at hn
    rw [ha.marked k n hn, ha.gen k n hn, ha.created]
    exact h.marked k n hn
  · rw [ha.nodeArray] at hn
    rw [ha.path k n hn] at hp
    rw [ha.gen k n hn, ha.created]
    exact h.rooted k n hn hp

theorem Inside.alike (h : Inside io) (ha : Alike io io') : Inside io' := by
  obtain ⟨inst, hinst, hbound⟩ := h.bound
  exact ⟨h.toBase.alike ha, inst, ha.inst.trans hinst, hbound.alike ha⟩

theorem Outside.alike (h : Outside io) (ha : Alike io io') : Outside io' := by
  refine ⟨h.toBase.alike ha, fun hno => ?_, fun hc => ?_⟩
  · obtain ⟨inst, hinst, hbound⟩ := h.bound (ha.mediaChanged.symm.trans hno)
    exact ⟨inst, ha.inst.trans hinst, hbound.alike ha⟩
  obtain ⟨hinst, hmark⟩ := h.unbound (ha.mediaChanged.symm.trans hc)
  refine ⟨ha.inst.trans hinst, fun k n hn => ?_⟩
  rw [ha.nodeArray] at hn
  rw [ha.marked k n hn, ha.path k n hn]
  exact hmark k n hn

theorem alike_setNode {v : FatNode} (hfd : v.fd = (io.node n).fd)
    (hp : v.path = (io.node n).path) (hm : v.mediaChanged = (io.node n).mediaChanged)
    (hg : v.gen = (io.node n).gen) : Alike io (io.setNode n v) := by
  have hfield : ∀ {β : Type} (f : FatNode → β), f v = f (io.node n) →
      ∀ n', f ((io.setNode n v).node n') = f (io.node n') := by
    intro β f hf n'
    rcases eq_or_ne n' n with rfl | hne
    · exact (congrArg f (update_self n' v io.node)).trans hf
    · show f (update io.node n v n') = f (io.node n')
      rw [update_of_ne hne]
  exact ⟨rfl, rfl, le_rfl, rfl, rfl, rfl, rfl, rfl, fun _ n' _ => hfield FatNode.fd hfd n',
    fun _ n' _ => hfield FatNode.path hp n', fun _ n' _ => hfield FatNode.mediaChanged hm n',
    fun _ n' _ => hfield FatNode.gen hg n'⟩

theorem remove_outside {count : Nat} (h : Outside io) (hn : io.nodeArray k = some n)
    (hclosed : io.mediaChanged = false → ∀ inst, io.inst = some inst → inst.opened k = false)
    (hcount : ∀ k', k' < io.nodeCount → k' ≠ k → k' < count) :
    Outside { io with nodeCount := count, nodeArray := update io.nodeArray k none } := by
  have hold : ∀ k' n', update io.nodeArray k none k' = some n' →
      k' ≠ k ∧ io.nodeArray k' = some n' := by
    intro k' n' hk'
    rcases eq_or_ne k' k with rfl | hne
    · rw [update_self] at hk'
      cases hk'
    · rw [update_of_ne hne] at hk'
      exact ⟨hne, hk'⟩
  refine ⟨⟨fun k' n' hk' => h.fd k' n' (hold k' n' hk').2,
    fun k' n' hk' => h.next k' n' (hold k' n' hk').2, fun k' n' hk' => ?_,
    fun k' n' hk' => h.gen k' n' (hold k' n' hk').2, fun k1 n1 k2 n2 h1 h2 => ?_, h.log, h.fault⟩,
    fun hno => ?_, fun hc => ?_⟩
  · obtain ⟨hne, hk'⟩ := hold k' n' hk'
    exact hcount k' (h.count k' n' hk') hne
  · exact h.root k1 n1 k2 n2 (hold k1 n1 h1).2 (hold k2 n2 h2).2
  · obtain ⟨inst, hinst, hbound⟩ := h.bound hno
    refine ⟨inst, hinst, hbound.number, fun k' hk' => ?_,
      fun k' n' hk'' => hbound.marked k' n' (hold k' n' hk'').2,
      fun k' n' hk'' => hbound.rooted k' n' (hold k' n' hk'').2⟩
    have hne : k' ≠ k := by
      rintro rfl
      rw [hclosed hno inst hinst] at hk'
      cases hk'
    dsimp only
    rw [update_of_ne hne]
    exact hbound.opened k' hk'
  · obtain ⟨hinst, hmark⟩ := h.unbound hc
    exact ⟨hinst, fun k' n' hk' => hmark k' n' (hold k' n' hk').2⟩

/-- The state after an operation: all is over when the mount is freed. -/
structure After (io : FatIo) : Prop where
  base : Base io
  outside : io.freed = false → Outside io

theorem Outside.after (h : Outside io) : After io := ⟨h.toBase, fun _ => h⟩

theorem freeEmpty_after (h : Outside io) : After (freeEmpty io) := by
  unfold freeEmpty
  split
  · exact ⟨⟨h.fd, h.next, h.count, h.gen, h.root, h.log, h.fault⟩, fun hf => by cases hf⟩
  · exact h.after

theorem fatClose_opened (hinst : io.inst = some inst) (hfd : (io.node n).fd = some k) :
    ∀ inst', (fatClose io n).inst = some inst' → inst'.opened k = false := by
  intro inst' h
  unfold fatClose at h
  rw [hinst, hfd] at h
  obtain rfl := some.inj h
  simp

theorem Inside.outside (h : Inside io) (hno : io.mediaChanged = false) : Outside io :=
  ⟨h.toBase, fun _ => h.bound, fun hc => by rw [hno] at hc; cases hc⟩

theorem fatClose_mediaChanged : (fatClose io n).mediaChanged = io.mediaChanged := by
  unfold fatClose
  split <;> rfl

section

variable (h : Outside io) (hn : io.nodeArray k = some n)
include h hn

theorem closeNode_outside :
    Outside (closeNode io n) ∧ (closeNode io n).nodeArray = io.nodeArray ∧
      ((closeNode io n).mediaChanged = false →
        ∀ inst, (closeNode io n).inst = some inst → inst.opened k = false) := by
  unfold closeNode
  split
  · rename_i hc
    simp only [Bool.and_eq_true, Bool.not_eq_true'] at hc
    obtain ⟨inst, hinst, hbound⟩ := h.bound hc.1.1
    have hstays := fatClose_stays ⟨h.toBase, inst, hinst, hbound⟩ hn
      ((hbound.marked k n hn).mp hc.1.2)
    exact ⟨hstays.inside.outside (fatClose_mediaChanged.trans hc.1.1), hstays.kept.nodeArray,
      fun _ => fatClose_opened hinst (h.fd k n hn)⟩
  · rename_i hc
    refine ⟨h, rfl, fun hno inst hinst => ?_⟩
    obtain ⟨inst', hinst', hbound⟩ := h.bound hno
    obtain rfl : inst = inst' := some.inj (hinst.symm.trans hinst')
    -- the node is marked, so its descriptor is of another instance
    rw [hno, hinst] at hc
    cases hopen : inst.opened k with
    | false => rfl
    | true =>
      obtain ⟨n', hn', hgen⟩ := hbound.opened k hopen
      obtain rfl : n = n' := some.inj (hn.symm.trans hn')
      have hmark := (hbound.marked k n hn).mpr hgen
      rw [hmark] at hc
      exact absurd rfl hc

theorem releaseNode_after : After (releaseNode io n) := by
  obtain ⟨hout, harray, hopened⟩ := closeNode_outside h hn
  unfold releaseNode
  rw [h.fd k n hn]
  refine freeEmpty_after (remove_outside hout (harray ▸ hn) hopened fun k' hlt hne => ?_)
  split <;> omega

theorem nRelease_after : After (nRelease io n) := by
  have hout := h.alike (alike_setNode
    (v := { io.node n with count := (io.node n).count - 1 }) rfl rfl rfl rfl)
  unfold nRelease
  simp only
  split
  · exact releaseNode_after hout hn
  · exact hout.after

end

theorem nRelease_after_none (h : Outside io) (hfd : (io.node n).fd = none) :
    After (nRelease io n) := by
  have hout := h.alike (alike_setNode
    (v := { io.node n with count := (io.node n).count - 1 }) rfl rfl rfl rfl)
  obtain ⟨io1, hio1⟩ : ∃ io1, io1 = io.setNode n { io.node n with
    count := (io.node n).count - 1 } := ⟨_, rfl⟩
  have hfd1 : (io1.node n).fd = none := by
    rw [hio1]
    exact (congrArg FatNode.fd (update_self n _ io.node)).trans hfd
  unfold nRelease
  simp only [← hio1] at hout ⊢
  split
  · unfold releaseNode
    rw [hfd1]
    exact freeEmpty_after hout
  · exact hout.after

theorem addName_eq {xs buf buf' : List UInt8} (h : addName buf xs = some buf') :
    buf' = buf ++ xs ++ [0x2F] := by
  induction xs generalizing buf with
  | nil =>
    obtain rfl := some.inj h
    rw [append_nil]
  | cons c xs ih =>
    rw [addName] at h
    split at h
    · cases h
    · rw [ih h, append_assoc buf [c] xs]
      rfl

theorem addNames_eq {names : List (List UInt8)} {buf buf' : List UInt8}
    (h : addNames buf names = some buf') : buf' = buf ++ names.flatMap (· ++ [0x2F]) := by
  induction names generalizing buf with
  | nil =>
    obtain rfl := some.inj h
    simp
  | cons name names ih =>
    obtain ⟨buf1, h1, h2⟩ := bind_eq_some_iff.mp h
    rw [ih h2, addName_eq h1, flatMap_cons]
    simp only [append_assoc]

theorem hidePeriod_no_slash (h : 0x2F ∉ name) : 0x2F ∉ hidePeriod name := by
  unfold hidePeriod
  split
  · split
    · intro hmem
      rcases mem_cons.mp hmem with hc | hmem
      · cases hc
      · exact h (.tail _ hmem)
    · exact h
  · exact h

theorem head_dropLast_of_no_slash {c : UInt8} {xs ys : List UInt8} (h : 0x2F ∉ c :: xs) :
    (c :: (xs ++ 0x2F :: ys)).dropLast.head? ≠ some 0x2F := by
  have hne : xs ++ 0x2F :: ys ≠ [] := by simp
  rw [dropLast_cons_of_ne_nil hne, head?_cons]
  intro heq
  exact h (some.inj heq ▸ mem_cons_self)

theorem buildPath_head (ho : ∀ o ∈ owners, o ≠ [] ∧ 0x2F ∉ o) (hn : 0x2F ∉ name)
    (h : buildPath owners name = some path) : path.head? ≠ some 0x2F := by
  obtain ⟨buf, hbuf, rfl⟩ := map_eq_some_iff.mp h
  have heq := addNames_eq hbuf
  rw [nil_append] at heq
  have hslash := hidePeriod_no_slash hn
  cases owners with
  | nil =>
    rw [nil_append, flatMap_cons, flatMap_nil, append_nil] at heq
    cases hname : hidePeriod name with
    | nil =>
      rw [heq, hname]
      exact nofun
    | cons c xs =>
      rw [heq, hname]
      exact head_dropLast_of_no_slash (hname ▸ hslash)
  | cons o owners =>
    obtain ⟨hne, hno⟩ := ho o mem_cons_self
    rw [cons_append, flatMap_cons, append_assoc] at heq
    cases o with
    | nil => exact absurd rfl hne
    | cons c xs =>
      rw [heq, cons_append, singleton_append]
      exact head_dropLast_of_no_slash hno

theorem buildPath_ne_root (ho : ∀ o ∈ owners, o ≠ [] ∧ 0x2F ∉ o) (hn : 0x2F ∉ name)
    (h : buildPath owners name = some path) : path ≠ rootPath := by
  rintro rfl
  exact buildPath_head ho hn h rfl

/-! ## Opening -/

section

variable (h : Inside io) (hn : io.nodeArray k = some n)
include h hn

theorem openExclusive_stays (hgen : (io.node n).gen = io.created) (node : Nat) (name : List UInt8)
    (mode : Nat) : Stays io (openExclusive io node n name mode).2 := by
  unfold openExclusive
  split
  · have hopen := fatOpen_stays h hn hgen node name .rb
    split
    · rename_i io1 heq
      rw [heq] at hopen
      refine hopen.trans (fatClose_stays hopen.inside (hopen.kept.nodeArray.symm ▸ hn) ?_)
      rwa [hopen.kept.node, hopen.kept.created]
    · rename_i e io1 heq
      rw [heq] at hopen
      exact hopen
  · exact h.stays

theorem openModes_stays (hgen : (io.node n).gen = io.created) (node : Nat) (name : List UInt8)
    (mode : Nat) : Stays io (openModes io node n name mode).2 := by
  -- each further try is made in a state that the one before has kept
  have hagain : ∀ io1 mode', Stays io io1 → Stays io (fatOpen io1 node n name mode').2 := by
    intro io1 mode' h1
    refine h1.trans (fatOpen_stays h1.inside (h1.kept.nodeArray.symm ▸ hn) ?_ node name mode')
    rwa [h1.kept.node, h1.kept.created]
  unfold openModes
  obtain ⟨p1, hp1⟩ : ∃ p1, p1 = fatOpen io node n name .rbPlus := ⟨_, rfl⟩
  have h1 : Stays io p1.2 := hp1 ▸ hagain io .rbPlus h.stays
  obtain ⟨p2, hp2⟩ : ∃ p2, p2 =
    if p1.1 = some .readOnlyFile then fatOpen p1.2 node n name .rb else (p1.1, p1.2) := ⟨_, rfl⟩
  have h2 : Stays io p2.2 := by
    rw [hp2]
    split
    · exact hagain _ _ h1
    · exact h1
  simp only [← hp1, ← hp2]
  split
  · exact hagain _ _ h2
  · exact h2

theorem openRecord_inside (mode : Nat) :
    Inside (openRecord io n mode).2 ∧ (openRecord io n mode).2.nodeArray = io.nodeArray := by
  unfold openRecord
  split
  · rename_i e reply io1 heq
    have hcall := fatCall_of h hn heq
    exact ⟨hcall.inside, hcall.kept.nodeArray⟩
  rename_i reply io1 heq
  have hcall := fatCall_of h hn heq
  obtain ⟨io2, hio2⟩ : ∃ io2, io2 = io1.setNode n { io1.node n with
    directory := (reply.bytes 11).toNat.testBit 4 } := ⟨_, rfl⟩
  have h2 : Inside io2 := by
    rw [hio2]
    exact hcall.inside.alike (alike_setNode rfl rfl rfl rfl)
  have harray : io2.nodeArray = io.nodeArray := by
    rw [hio2]
    exact hcall.kept.nodeArray
  simp only [← hio2]
  split
  · have hset := fatCall_stays h2 (harray ▸ hn) .setRecord
    exact ⟨hset.inside, hset.kept.nodeArray.trans harray⟩
  · exact ⟨h2, harray⟩

theorem openNode_inside (hgen : (io.node n).gen = io.created) (node : Nat) (name : List UInt8)
    (mode : Nat) :
    Inside (openNode io node n name mode).2 ∧
      (openNode io node n name mode).2.nodeArray = io.nodeArray := by
  have h1 := openExclusive_stays h hn hgen node name mode
  unfold openNode
  split
  · rename_i e io1 heq
    rw [heq] at h1
    exact ⟨h1.inside, h1.kept.nodeArray⟩
  rename_i io1 heq
  rw [heq] at h1
  have hn1 : io1.nodeArray k = some n := h1.kept.nodeArray.symm ▸ hn
  have hgen1 : (io1.node n).gen = io1.created := by
    rwa [h1.kept.node, h1.kept.created]
  have h2 := h1.trans (openModes_stays h1.inside hn1 hgen1 node name mode)
  split
  · rename_i e io2 heq2
    rw [heq2] at h2
    exact ⟨h2.inside, h2.kept.nodeArray⟩
  rename_i io2 heq2
  rw [heq2] at h2
  have hn2 : io2.nodeArray k = some n := h2.kept.nodeArray.symm ▸ hn
  obtain ⟨h3, harray⟩ := openRecord_inside h2.inside hn2 mode
  exact ⟨h3, harray.trans h2.kept.nodeArray⟩

end

theorem freeIndex_some : ∀ left j, freeIndex io left j = some i → io.nodeArray i = none := by
  intro left
  induction left with
  | zero =>
    intro j h
    cases h
  | succ left ih =>
    intro j h
    rw [freeIndex] at h
    split at h
    · rename_i hfree
      obtain rfl : j = i := some.inj h
      exact hfree
    · exact ih _ h

theorem allocNode_node (path : List UInt8) :
    (allocNode io path).node io.next = ⟨1, false, path, none, false, io.created⟩ :=
  update_self _ _ _

theorem allocNode_inside (h : Inside io) (path : List UInt8) : Inside (allocNode io path) := by
  have hold : ∀ k n, io.nodeArray k = some n → (allocNode io path).node n = io.node n := by
    intro k n hn
    have hlt := h.next k n hn
    exact update_of_ne (by omega) _ _
  exact h.alike ⟨rfl, rfl, Nat.le_succ _, rfl, rfl, rfl, rfl, rfl,
    fun k n hn => congrArg FatNode.fd (hold k n hn),
    fun k n hn => congrArg FatNode.path (hold k n hn),
    fun k n hn => congrArg FatNode.mediaChanged (hold k n hn),
    fun k n hn => congrArg FatNode.gen (hold k n hn)⟩

theorem putNode_inside (h : Inside io) (hi : io.nodeArray i = none) (hnext : n < io.next)
    (hnew : ∀ k, io.nodeArray k ≠ some n) (hm : (io.node n).mediaChanged = false)
    (hgen : (io.node n).gen = io.created) (hp : (io.node n).path ≠ rootPath) :
    Inside (putNode io n i) := by
  have hself : (putNode io n i).node n = { io.node n with fd := some i } := update_self _ _ _
  have hother : ∀ n', n' ≠ n → (putNode io n i).node n' = io.node n' :=
    fun n' hne => update_of_ne hne _ _
  have harray : ∀ k' n', (putNode io n i).nodeArray k' = some n' →
      k' = i ∧ n' = n ∨ k' ≠ i ∧ n' ≠ n ∧ io.nodeArray k' = some n' := by
    intro k' n' hk'
    have hup : update io.nodeArray i (some n) k' = some n' := hk'
    rcases eq_or_ne k' i with rfl | hne
    · rw [update_self] at hup
      exact .inl ⟨rfl, (some.inj hup).symm⟩
    · rw [update_of_ne hne] at hup
      refine .inr ⟨hne, ?_, hup⟩
      rintro rfl
      exact hnew k' hup
  have hcount : (putNode io n i).nodeCount = if io.nodeCount < i + 1 then i + 1 else io.nodeCount :=
    rfl
  obtain ⟨inst, hinst, hbound⟩ := h.bound
  refine ⟨⟨fun k' n' hk' => ?_, fun k' n' hk' => ?_, fun k' n' hk' => ?_, fun k' n' hk' => ?_,
    fun k1 n1 k2 n2 h1 h2 hp1 hp2 => ?_, h.log, h.fault⟩, inst, hinst, hbound.number,
    fun k' hk' => ?_, fun k' n' hk' => ?_, fun k' n' hk' hp' => ?_⟩
  · rcases harray k' n' hk' with ⟨rfl, rfl⟩ | ⟨-, hne, hk'⟩
    · rw [hself]
    · rw [hother n' hne]
      exact h.fd k' n' hk'
  · rcases harray k' n' hk' with ⟨rfl, rfl⟩ | ⟨-, -, hk'⟩
    · exact hnext
    · exact h.next k' n' hk'
  · rw [hcount]
    rcases harray k' n' hk' with ⟨rfl, rfl⟩ | ⟨-, -, hk'⟩
    · split <;> omega
    · have hlt := h.count k' n' hk'
      split <;> omega
  · rcases harray k' n' hk' with ⟨rfl, rfl⟩ | ⟨-, hne, hk'⟩
    · rw [hself]
      exact le_of_eq hgen
    · rw [hother n' hne]
      exact h.gen k' n' hk'
  · rcases harray k1 n1 h1 with ⟨rfl, rfl⟩ | ⟨-, hne1, h1⟩
    · rw [hself] at hp1
      exact absurd hp1 hp
    rcases harray k2 n2 h2 with ⟨rfl, rfl⟩ | ⟨-, hne2, h2⟩
    · rw [hself] at hp2
      exact absurd hp2 hp
    · rw [hother n1 hne1] at hp1
      rw [hother n2 hne2] at hp2
      exact h.root k1 n1 k2 n2 h1 h2 hp1 hp2
  · obtain ⟨n', hn', hgen'⟩ := hbound.opened k' hk'
    have hne : k' ≠ i := by
      rintro rfl
      rw [hi] at hn'
      cases hn'
    have hnn : n' ≠ n := by
      rintro rfl
      exact hnew k' hn'
    refine ⟨n', ?_, ?_⟩
    · exact (update_of_ne hne (some n) io.nodeArray).trans hn'
    · rwa [hother n' hnn]
  · rcases harray k' n' hk' with ⟨rfl, rfl⟩ | ⟨-, hne, hk'⟩
    · rw [hself]
      exact ⟨fun _ => hgen, fun _ => hm⟩
    · rw [hother n' hne]
      exact hbound.marked k' n' hk'
  · rcases harray k' n' hk' with ⟨rfl, rfl⟩ | ⟨-, hne, hk'⟩
    · rw [hself] at hp'
      exact absurd hp' hp
    · rw [hother n' hne] at hp' ⊢
      exact hbound.rooted k' n' hk' hp'

theorem openEntered_after (h : Inside io) (node : Nat) (hp : path ≠ rootPath) (type : VfsType)
    (mode : Nat) (memory : Bool) :
    After (openEntered io node path type mode memory).2.2 := by
  unfold openEntered
  split
  · exact (leaveFat_outside h).after
  have halloc := allocNode_inside h path
  obtain ⟨io1, hio1⟩ : ∃ io1, io1 = allocNode io path := ⟨_, rfl⟩
  have hnode : io1.node io.next = ⟨1, false, path, none, false, io.created⟩ := by
    rw [hio1]
    exact allocNode_node path
  have hcreated : io1.created = io.created := by rw [hio1]; rfl
  have hnext : io.next < io1.next := by
    rw [hio1]
    exact Nat.lt_succ_self _
  have hnew : ∀ k, io1.nodeArray k ≠ some io.next := by
    intro k hk
    rw [hio1] at hk
    exact absurd (h.next k _ hk) (lt_irrefl _)
  rw [← hio1] at halloc
  simp only [← hio1]
  split
  · refine nRelease_after_none (leaveFat_outside halloc) ?_
    rw [(leaveFat_same io1).fd, hnode]
  rename_i i hi
  have hput := putNode_inside halloc (freeIndex_some _ _ hi) hnext hnew (by rw [hnode])
    (by rw [hnode, hcreated]) (by rw [hnode]; exact hp)
  have hput_array : (putNode io1 io.next i).nodeArray i = some io.next := update_self _ _ _
  have hput_gen : ((putNode io1 io.next i).node io.next).gen =
      (putNode io1 io.next i).created := by
    have hself : (putNode io1 io.next i).node io.next =
        { io1.node io.next with fd := some i } := update_self _ _ _
    rw [hself, hnode]
    exact hcreated.symm
  obtain ⟨hin, harray⟩ := openNode_inside hput hput_array hput_gen node
    (if type = .directory then path ++ [0x2F] else path) mode
  split
  · rename_i e io2 heq
    rw [heq] at hin harray
    refine nRelease_after (leaveFat_outside hin) (k := i) ?_
    rw [(leaveFat_same io2).nodeArray]
    exact harray.symm ▸ hput_array
  · rename_i io2 heq
    rw [heq] at hin
    exact (leaveFat_outside hin).after

/-! ## All operations -/

theorem nOpen_after (h : Outside io) (node : Nat) (ho : ∀ o ∈ owners, o ≠ [] ∧ 0x2F ∉ o)
    (hn : 0x2F ∉ name) (type : VfsType) (mode : Nat) (memory : Bool) :
    After (nOpen io node owners name type mode memory).2.2 := by
  unfold nOpen
  split
  · exact h.after
  split
  · exact h.after
  rename_i path hpath
  have hroot := buildPath_ne_root ho hn hpath
  split
  · exact h.after
  split
  · exact h.after
  split
  · rename_i e io1 heq
    exact ((entered_of h heq).outside nofun).after
  · rename_i io1 heq
    exact openEntered_after ((entered_of h heq).inside rfl) node hroot type mode memory

theorem fatSeek_stays (h : Inside io) (hn : io.nodeArray k = some n) (offset : Nat) :
    Stays io (fatSeek io n offset).2 := by
  unfold fatSeek
  split
  · exact fatCall_stays h hn _
  split
  · rename_i e reply io1 heq
    exact fatCall_of h hn heq
  · rename_i reply io1 heq
    have hcall := fatCall_of h hn heq
    exact hcall.trans (fatCall_stays hcall.inside (hcall.kept.nodeArray.symm ▸ hn) _)

theorem transfer_outside (h : Inside io) (hn : io.nodeArray k = some n) (offset : Nat)
    (call : DriverCall) : Outside (transfer io n offset call).2.2 := by
  have hseek := fatSeek_stays h hn offset
  unfold transfer
  split
  · rename_i e io1 heq
    rw [heq] at hseek
    exact leaveFat_outside hseek.inside
  · rename_i io1 heq
    rw [heq] at hseek
    exact leaveFat_outside
      (fatCall_stays hseek.inside (hseek.kept.nodeArray.symm ▸ hn) call).inside

theorem nReadWrite_outside (h : Outside io) (hn : io.nodeArray k = some n) (offset size : Nat)
    (write : Bool) : Outside (nReadWrite io n offset size write).2.2 := by
  unfold nReadWrite
  split
  · exact h
  split
  · exact h
  split
  · rename_i e io1 heq
    exact (entered_of h heq).outside nofun
  rename_i io1 heq
  have henter := entered_of h heq
  have hout := transfer_outside (henter.inside rfl) (henter.same.nodeArray.symm ▸ hn) offset
    (if write then .write size else .read size)
  split
  all_goals
    rename_i heq2
    rw [heq2] at hout
    exact hout

theorem nAppend_outside (h : Outside io) (hn : io.nodeArray k = some n) (size : Nat) :
    Outside (nAppend io n size).2.2 := by
  unfold nAppend
  split
  · exact h
  split
  · rename_i e io1 heq
    exact (entered_of h heq).outside nofun
  rename_i io1 heq
  have henter := entered_of h heq
  have hn1 : io1.nodeArray k = some n := henter.same.nodeArray.symm ▸ hn
  split
  · rename_i e reply io2 heq2
    exact leaveFat_outside (fatCall_of (henter.inside rfl) hn1 heq2).inside
  rename_i reply io2 heq2
  have hcall := fatCall_of (henter.inside rfl) hn1 heq2
  split
  · exact leaveFat_outside hcall.inside
  have hout := transfer_outside hcall.inside (hcall.kept.nodeArray.symm ▸ hn1)
    (le32 reply.bytes 28) (.write size)
  split
  all_goals
    rename_i heq3
    rw [heq3] at hout
    exact hout

theorem nSync_outside (h : Outside io) : Outside (nSync io).2 := by
  unfold nSync
  split
  · rename_i e io1 heq
    exact (entered_of h heq).outside nofun
  · rename_i io1 heq
    exact leaveFat_outside (devSync_stays ((entered_of h heq).inside rfl)).inside

theorem readdirEntered_outside (h : Inside io) (hn : io.nodeArray k = some n) (offset : Nat) :
    Outside (readdirEntered io n offset).2.2 := by
  have hsync := devSync_stays h
  unfold readdirEntered
  obtain ⟨p, hp⟩ : ∃ p, p = devSync io := ⟨_, rfl⟩
  rw [← hp] at hsync
  simp only [← hp]
  have hn1 : p.2.nodeArray k = some n := hsync.kept.nodeArray.symm ▸ hn
  split
  · exact leaveFat_outside hsync.inside
  split
  · rename_i e reply io1 heq
    exact leaveFat_outside (fatCall_of hsync.inside hn1 heq).inside
  rename_i reply io1 heq
  have hseek := fatCall_of hsync.inside hn1 heq
  split
  all_goals
    rename_i heq2
    exact leaveFat_outside
      (fatCall_of hseek.inside (hseek.kept.nodeArray.symm ▸ hn1) heq2).inside

section

variable (h : Outside io) (hn : io.nodeArray k = some n)
include h hn

theorem nReaddir_outside (offset : Nat) : Outside (nReaddir io n offset).2.2 := by
  unfold nReaddir
  iterate 4
    split
    · exact h
  split
  · rename_i io1 heq
    have henter := entered_of h heq
    exact readdirEntered_outside (henter.inside rfl)
      (henter.same.nodeArray.symm ▸ hn) offset
  · rename_i io1 heq
    have henter := entered_of h heq
    have hout := henter.outside nofun
    have hn1 : io1.nodeArray k = some n := henter.same.nodeArray.symm ▸ hn
    split
    · rename_i io2 heq2
      have hagain := entered_of hout heq2
      exact readdirEntered_outside (hagain.inside rfl)
        (hagain.same.nodeArray.symm ▸ hn1) offset
    · rename_i e io2 heq2
      exact (entered_of hout heq2).outside nofun
  · rename_i e io1 _ heq
    exact (entered_of h heq).outside nofun

theorem nStat_outside : Outside (nStat io n).2.2 := by
  unfold nStat
  split
  · rename_i e io1 heq
    exact (entered_of h heq).outside nofun
  rename_i io1 heq
  have henter := entered_of h heq
  split
  all_goals
    rename_i heq2
    exact leaveFat_outside
      (fatCall_of (henter.inside rfl) (henter.same.nodeArray.symm ▸ hn) heq2).inside

theorem nTruncate_outside (size : Nat) : Outside (nTruncate io n size).2 := by
  unfold nTruncate
  split
  · exact h
  split
  · rename_i e io1 heq
    exact (entered_of h heq).outside nofun
  rename_i io1 heq
  have henter := entered_of h heq
  have hn1 : io1.nodeArray k = some n := henter.same.nodeArray.symm ▸ hn
  split
  · rename_i e reply io2 heq2
    exact leaveFat_outside (fatCall_of (henter.inside rfl) hn1 heq2).inside
  rename_i reply io2 heq2
  have hcall := fatCall_of (henter.inside rfl) hn1 heq2
  have hn2 : io2.nodeArray k = some n := hcall.kept.nodeArray.symm ▸ hn1
  split
  · exact leaveFat_outside hcall.inside
  split
  · exact leaveFat_outside (fatCall_stays hcall.inside hn2 .setRecord).inside
  split
  · refine nReadWrite_outside (leaveFat_outside hcall.inside) (k := k) ?_ _ _ _
    rwa [(leaveFat_same io2).nodeArray]
  · exact leaveFat_outside hcall.inside

end

theorem nRemove_outside (h : Outside io) (n : Nat) (owners : List (List UInt8))
    (name : List UInt8) (dir : Bool) : Outside (nRemove io n owners name dir).2 := by
  unfold nRemove
  iterate 3
    split
    · exact h
  split
  · rename_i e io1 heq
    exact (entered_of h heq).outside nofun
  · rename_i io1 heq
    exact leaveFat_outside (fatRemove_stays ((entered_of h heq).inside rfl) n _).inside

theorem exec_after (h : Outside io) {c : NodeCall} (hn : io.nodeArray k = some c.node)
    (hc : c.ValidNames) : After (io.exec c).2 := by
  cases c with
  | opening n owners name type mode memory => exact nOpen_after h n hc.1 hc.2 type mode memory
  | retain n =>
    exact (h.alike (alike_setNode
      (v := { io.node n with count := (io.node n).count + 1 }) rfl rfl rfl rfl)).after
  | release n => exact nRelease_after h hn
  | readWrite n offset size write => exact (nReadWrite_outside h hn offset size write).after
  | append n size => exact (nAppend_outside h hn size).after
  | sync n => exact (nSync_outside h).after
  | readdir n offset => exact (nReaddir_outside h hn offset).after
  | stat n => exact (nStat_outside h hn).after
  | truncate n size => exact (nTruncate_outside h hn size).after
  | remove n owners name dir => exact (nRemove_outside h n owners name dir).after

theorem fatIoCreate_outside (replies : Nat → FatReply) : Outside (fatIoCreate replies) := by
  have harray : ∀ k n, (fatIoCreate replies).nodeArray k = some n → k = 0 ∧ n = 0 := by
    intro k n hk
    have hup : update (fun _ => none) 0 (some 0) k = some n := hk
    rcases eq_or_ne k 0 with rfl | hne
    · exact ⟨rfl, (some.inj hup).symm⟩
    · rw [update_of_ne hne] at hup
      cases hup
  refine ⟨⟨fun k n hk => ?_, fun k n hk => ?_, fun k n hk => ?_, fun k n hk => le_refl 0,
    fun k1 n1 k2 n2 h1 h2 _ _ => ?_, fun a ha => absurd ha not_mem_nil, rfl⟩, fun hno => ?_,
    fun _ => ⟨rfl, fun k n hk => .inr rfl⟩⟩
  · rw [(harray k n hk).1]
    rfl
  · rw [(harray k n hk).2]
    exact Nat.one_pos
  · rw [(harray k n hk).1]
    exact Nat.one_pos
  · rw [(harray k1 n1 h1).2, (harray k2 n2 h2).2]
  · cases hno

theorem after_of_run {replies : Nat → FatReply} {cs : List NodeCall}
    (hrun : Run nodeStep (fatIoCreate replies) cs io) : After io := by
  refine hrun.invariant (fun s c s' h hstep => ?_) (fatIoCreate_outside replies).after
  obtain ⟨⟨hfreed, k, hk⟩, hnames, rfl⟩ := hstep
  exact exec_after (h.outside hfreed) hk hnames

/-! ## Stale nodes -/

/-- A node other than the root, opened before the last change of the medium. -/
def FatIo.Stale (io : FatIo) (n : Nat) : Prop :=
  (io.node n).path ≠ rootPath ∧ (io.mediaChanged = true ∨ (io.node n).gen ≠ io.created)

/-- The operations that use the descriptor of their node. -/
def NodeCall.ByDescriptor : NodeCall → Prop
  | .readWrite _ offset _ _ => offset < 0xFFFFFFFF
  | .append .. => True
  | .readdir _ offset => 2 ≤ offset ∧ offset ≤ 0x10000
  | .stat _ => True
  | .truncate .. => True
  | _ => False

/-- The root directory is opened in a new instance. -/
def Access.RootOpening (a : Access) : Prop := ∃ number, a = .opening number number rootPath .rbPlus

/-- An operation fails, without any access but that of `enter_fat`. -/
structure Refused (io : FatIo) (r : Option NodeCode) (io' : FatIo) : Prop where
  error : r ≠ none
  log : ∀ a ∈ io'.log, a ∈ io.log ∨ a.RootOpening

theorem leaveFat_log (io : FatIo) : (leaveFat io).log = io.log := by
  unfold leaveFat
  split <;> rfl

theorem Entered.stale (he : Entered io io' none) (h : Outside io) (hn : io.nodeArray k = some n)
    (hs : io.Stale n) : (io'.node n).gen ≠ io'.created := by
  have hgen := h.gen k n hn
  have hle := he.created_le
  rw [he.node n hs.1]
  rcases hs.2 with hc | hne
  · have hlt := he.created_lt hc rfl
    omega
  · omega

theorem Entered.refused {r' : Option NodeCode} (he : Entered io io' r) (hr : r' ≠ none) :
    Refused io r' (leaveFat io') :=
  ⟨hr, by rw [leaveFat_log]; exact he.log⟩

theorem Entered.failed (he : Entered io io' r) (hr : r ≠ none) : Refused io r io' :=
  ⟨hr, he.log⟩

theorem Entered.fatCall_stale (he : Entered io io' none) (h : Outside io)
    (hn : io.nodeArray k = some n) (hs : io.Stale n) (call : DriverCall) :
    fatCall io' n call = (some .invalidParameters, io'.reply, io') :=
  FatVfs.fatCall_stale (he.inside rfl) (he.same.nodeArray.symm ▸ hn) (he.stale h hn hs) call

section

variable (h : Outside io) (hn : io.nodeArray k = some n) (hs : io.Stale n)
include h hn hs

theorem nReadWrite_refused {offset : Nat} (hoffset : offset < 0xFFFFFFFF) (size : Nat)
    (write : Bool) :
    Refused io (nReadWrite io n offset size write).1 (nReadWrite io n offset size write).2.2 := by
  unfold nReadWrite
  split
  · exact ⟨nofun, fun a ha => .inl ha⟩
  rw [if_neg (by omega)]
  split
  · rename_i e io1 heq
    exact (entered_of h heq).failed nofun
  rename_i io1 heq
  have he := entered_of h heq
  have hseek : fatSeek io1 n offset = (some .invalidParameters, io1) := by
    unfold fatSeek
    rw [he.fatCall_stale h hn hs, he.fatCall_stale h hn hs]
    split <;> rfl
  have htransfer : ∀ call, transfer io1 n offset call =
      (some .argument, io1.reply, leaveFat io1) := by
    intro call
    unfold transfer
    rw [hseek]
    rfl
  rw [htransfer]
  exact he.refused nofun

theorem nAppend_refused (size : Nat) :
    Refused io (nAppend io n size).1 (nAppend io n size).2.2 := by
  unfold nAppend
  split
  · exact ⟨nofun, fun a ha => .inl ha⟩
  split
  · rename_i e io1 heq
    exact (entered_of h heq).failed nofun
  · rename_i io1 heq
    have he := entered_of h heq
    rw [he.fatCall_stale h hn hs]
    exact he.refused nofun

theorem nStat_refused : Refused io (nStat io n).1 (nStat io n).2.2 := by
  unfold nStat
  split
  · rename_i e io1 heq
    exact (entered_of h heq).failed nofun
  rename_i io1 heq
  have he := entered_of h heq
  rw [he.fatCall_stale h hn hs]
  simp only
  rw [if_neg]
  · exact he.refused nofun
  · rw [he.same.path]
    exact hs.1

theorem nTruncate_refused (size : Nat) :
    Refused io (nTruncate io n size).1 (nTruncate io n size).2 := by
  unfold nTruncate
  split
  · exact ⟨nofun, fun a ha => .inl ha⟩
  split
  · rename_i e io1 heq
    exact (entered_of h heq).failed nofun
  · rename_i io1 heq
    have he := entered_of h heq
    rw [he.fatCall_stale h hn hs]
    exact he.refused nofun

end

theorem readdirEntered_refused (h : Outside io) (he : Entered io io' none)
    (hn : io.nodeArray k = some n) (hs : io.Stale n) (offset : Nat) :
    Refused io (readdirEntered io' n offset).1 (readdirEntered io' n offset).2.2 := by
  have hsync := devSync_stays (he.inside rfl)
  unfold readdirEntered
  obtain ⟨p, hp⟩ : ∃ p, p = devSync io' := ⟨_, rfl⟩
  have hlog : p.2.log = io'.log := by
    rw [hp]
    rfl
  rw [← hp] at hsync
  simp only [← hp]
  have hrefused : ∀ r : Option NodeCode, r ≠ none → Refused io r (leaveFat p.2) := by
    refine fun r hr => ⟨hr, ?_⟩
    rw [leaveFat_log, hlog]
    exact he.log
  split
  · exact hrefused _ nofun
  have hn1 : p.2.nodeArray k = some n := (hsync.kept.nodeArray.trans he.same.nodeArray).symm ▸ hn
  have hgen : (p.2.node n).gen ≠ p.2.created := by
    rw [hsync.kept.node, hsync.kept.created]
    exact he.stale h hn hs
  rw [FatVfs.fatCall_stale hsync.inside hn1 hgen]
  exact hrefused _ nofun

theorem nReaddir_refused (h : Outside io) (hn : io.nodeArray k = some n) (hs : io.Stale n)
    {offset : Nat} (h2 : 2 ≤ offset) (hmax : offset ≤ 0x10000) :
    Refused io (nReaddir io n offset).1 (nReaddir io n offset).2.2 := by
  unfold nReaddir
  split
  · exact ⟨nofun, fun a ha => .inl ha⟩
  rw [if_neg (by omega), if_neg (by omega), if_neg (by omega)]
  split
  · rename_i io1 heq
    exact readdirEntered_refused h (entered_of h heq) hn hs offset
  · rename_i io1 heq
    have he := entered_of h heq
    have hout := he.outside nofun
    have hn1 : io1.nodeArray k = some n := he.same.nodeArray.symm ▸ hn
    have hs1 : io1.Stale n := ⟨by rw [he.same.path]; exact hs.1, .inl (he.changed nofun)⟩
    have hlog : ∀ {r : Option NodeCode} {io2 : FatIo}, Refused io1 r io2 → Refused io r io2 := by
      intro r io2 hr
      refine ⟨hr.error, fun a ha => ?_⟩
      rcases hr.log a ha with ha | ha
      · exact he.log a ha
      · exact .inr ha
    split
    · rename_i io2 heq2
      exact hlog (readdirEntered_refused hout (entered_of hout heq2) hn1 hs1 offset)
    · rename_i e io2 heq2
      exact hlog ((entered_of hout heq2).failed nofun)
  · rename_i e io1 _ heq
    exact (entered_of h heq).failed nofun

theorem exec_refused (h : Outside io) {c : NodeCall} (hn : io.nodeArray k = some c.node)
    (hs : io.Stale c.node) (hc : c.ByDescriptor) :
    Refused io (io.exec c).1 (io.exec c).2 := by
  cases c with
  | readWrite n offset size write => exact nReadWrite_refused h hn hs hc size write
  | append n size => exact nAppend_refused h hn hs size
  | readdir n offset => exact nReaddir_refused h hn hs hc.1 hc.2
  | stat n => exact nStat_refused h hn hs
  | truncate n size => exact nTruncate_refused h hn hs size
  | opening | retain | release | sync | remove => exact hc.elim

/-- Isolation of the instances of a mount. -/
theorem isolation_of_run {replies : Nat → FatReply} {cs : List NodeCall} {io : FatIo}
    (hrun : Run nodeStep (fatIoCreate replies) cs io) :
    io.fault = false ∧ (∀ a ∈ io.log, a.Own) ∧
      (∀ k n, io.nodeArray k = some n → (io.node n).path = rootPath → io.freed = false →
        io.mediaChanged = false → (io.node n).gen = io.created) ∧
      ∀ c : NodeCall, io.Live c.node → io.Stale c.node → c.ByDescriptor →
        Refused io (io.exec c).1 (io.exec c).2 := by
  have h := after_of_run hrun
  refine ⟨h.base.fault, h.base.log, fun k n hn hp hfreed hno => ?_, fun c hlive hs hc => ?_⟩
  · obtain ⟨inst, -, hbound⟩ := (h.outside hfreed).bound hno
    exact hbound.rooted k n hn hp
  · obtain ⟨hfreed, k, hn⟩ := hlive
    exact exec_refused (h.outside hfreed) hn hs hc

/-- Replies of a device that reports one changed medium, in the call `i`. -/
def changedAt (i : Nat) : Nat → FatReply := fun j =>
  { error := none
    changed := false
    bytes := fun b => if b = 11 then 0x10 else 0
    size := 0
    sync := if j = i then some .mediaChanged else none }

/-- A directory is opened, and the next synchronization finds a new medium. -/
def changedIo : FatIo :=
  ((fatIoCreate (changedAt 4)).exec (.opening 0 [] [0x73, 0x75, 0x62] .directory 0 true)).2

theorem changedIo_run : Run nodeStep (fatIoCreate (changedAt 4))
    [.opening 0 [] [0x73, 0x75, 0x62] .directory 0 true, .sync 0] (changedIo.exec (.sync 0)).2 :=
  .snoc (.single ⟨⟨rfl, 0, rfl⟩, ⟨nofun, by decide⟩, rfl⟩) ⟨⟨rfl, 0, rfl⟩, trivial, rfl⟩

theorem changedIo_stale : (changedIo.exec (.sync 0)).2.Live 1 ∧
    (changedIo.exec (.sync 0)).2.Stale 1 :=
  ⟨⟨rfl, 1, rfl⟩, by decide, .inl rfl⟩

theorem isolation_of_run_stat : Refused (changedIo.exec (.sync 0)).2
    ((changedIo.exec (.sync 0)).2.exec (.stat 1)).1
    ((changedIo.exec (.sync 0)).2.exec (.stat 1)).2 :=
  (isolation_of_run changedIo_run).2.2.2 (.stat 1) changedIo_stale.1 changedIo_stale.2 trivial

/-- A name in a stale directory is still a path of the new instance. -/
theorem stale_directory_removes :
    ¬ ∀ (replies : Nat → FatReply) (cs : List NodeCall) (io : FatIo) (c : NodeCall),
      Run nodeStep (fatIoCreate replies) cs io → io.Live c.node → io.Stale c.node →
        c.ValidNames → ∀ a ∈ (io.exec c).2.log, a ∈ io.log ∨ a.RootOpening := by
  intro h
  have hlog := h _ _ _ (.remove 1 [[0x73, 0x75, 0x62]] [0x78] false) changedIo_run
    changedIo_stale.1 changedIo_stale.2
    ⟨by decide, by decide⟩ (.removal 2 1 [0x73, 0x75, 0x62, 0x2F, 0x78]) (by decide +kernel)
  rcases hlog with hold | ⟨number, hopen⟩
  · exact absurd hold (by decide +kernel)
  · cases hopen

end Dancy.FatVfs
