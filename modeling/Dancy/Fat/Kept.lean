import Dancy.Fat.File

/-!
# What the driver keeps

The functions of the driver reach the device and the buffers through a few of
them only. `Kept` says that these keep a property `I` of the device and the
buffers, where `J` stands in for `I` while a cluster is changed in its buffer,
and `P` are the table entries that are set. Then every public function keeps it.
-/

namespace Dancy.Fat

open Lib

abbrev onStore (I : Store → Prop) (s : FatInstance) : Prop := I s.toStore

def Volume.OutsideTables (v : Volume) (sector : Nat) : Prop :=
  sector < v.reservedSectors ∨ v.rootSector ≤ sector

/-- No write outside of the allocation tables fails. -/
def Volume.WritesOk (v : Volume) : Prop :=
  ∀ tick sector, v.OutsideTables sector → v.device.writeOk tick (sector * v.ioMul) = true

/-- What the functions below the public ones have to keep. -/
structure Kept (v : Volume) (P : Nat → Prop) (I J : Store → Prop) : Prop where
  entries : ∀ c, 2 ≤ c → P c
  block : ∀ sector, v.OutsideTables sector → Keeps (onStore I) (readBlock v (sector * v.ioMul))
  record : ∀ fd, Keeps (onStore I) (writeRecordBuffer v fd)
  info : v.type = .fat32 → Keeps (onStore I) (writeFsInfo v)
  cluster : ∀ c skipIo, Triple (onStore I) (readCluster v c skipIo)
    (fun _ s => 2 ≤ c ∧ I s.toStore ∧ J s.toStore) (onStore I)
  change : ∀ (s : Store) b, J s → J { s with clusterBuffer := b }
  store : Triple (onStore J) (writeCluster v) (fun _ => onStore I) (onStore I)
  get : ∀ off, Keeps (onStore I) (getTableValue v off)
  set : ∀ off val, P off → Keeps (onStore I) (setTableValue v off val)
  table : Keeps (onStore I) (writeTable v)
  window : ∀ off, v.type = .fat32 → off ≤ (v.clusters + 2) * 4 →
    Keeps (onStore I) (readTableBuffer v off)
  forget : ∀ (s : Store) b, I s → I { s with blockBufferLba := 0, blockBuffer := b }

namespace Kept

variable {v : Volume} {P : Nat → Prop} {I J : Store → Prop}

theorem other {f : FatInstance → FatInstance} (h : ∀ s, (f s).toStore = s.toStore) :
    Keeps (onStore I) (Prog.update f : FatProg PUnit) :=
  Keeps.update fun s hs => show I (f s).toStore from (h s).symm ▸ hs

variable (name : List UInt8) (fd : Nat) (c : Nat)

theorem updateFd (f : FatFd → FatFd) : Keeps (onStore I) (Fat.updateFd fd f) :=
  other fun _ => rfl

theorem writeTimestamps {E : FatInstance → Prop} (entry : Bytes) (created modified : Bool) :
    Triple (onStore I) (Fat.writeTimestamps v entry created modified) (fun _ => onStore I) E := by
  refine Triple.bind (Q := fun _ => onStore I) (.act fun s hs => hs) fun iso => ?_
  exact .pure fun s hs => hs

variable (h : Kept v P I J)
include h

theorem readCluster (skipIo : Bool) : Keeps (onStore I) (Fat.readCluster v c skipIo) :=
  .of_triple (h.cluster c skipIo) fun _ _ hs => hs.2.1

theorem writeEmptyCluster : Keeps (onStore I) (Fat.writeEmptyCluster v c) := by
  refine Triple.bind (h.cluster c true) fun _ => ?_
  refine Triple.bind ?_ fun _ => h.store
  exact Triple.update fun s hs => h.change s.toStore _ hs.2.2

/-! ## Chains -/

theorem freeFrom (left : Nat) : ∀ i, Triple (onStore I) (Fat.freeFrom v left i)
    (fun r s => (∀ c, r = some c → i ≤ c) ∧ I s.toStore) (onStore I) := by
  induction left with
  | zero => exact fun i => Triple.pure fun s hs => ⟨nofun, hs⟩
  | succ left ih =>
    intro i
    refine Triple.bind (h.get i) fun val => ?_
    refine Triple.ite (fun _ => ?_) fun _ => ?_
    · refine Triple.pure fun s hs => ⟨fun c hc => ?_, hs⟩
      cases hc
      rfl
    · refine (ih (i + 1)).weaken (fun _ => id) fun r s hr => ⟨fun c hc => ?_, hr.2⟩
      have := hr.1 c hc
      omega

theorem freeAfterLast : Triple (onStore I) (Fat.freeAfterLast v)
    (fun r s => (∀ c, r = some c → 2 ≤ c) ∧ I s.toStore) (onStore I) := by
  refine Triple.bind Keeps.gets fun last => ?_
  refine Triple.ite (fun hlast => ?_) fun _ => ?_
  · refine (h.freeFrom _ last).weaken (fun _ => id) fun r s hr => ⟨fun c hc => ?_, hr.2⟩
    have := hr.1 c hc
    omega
  · exact Triple.pure fun s hs => ⟨nofun, hs⟩

theorem allocateCluster : Triple (onStore I) (Fat.allocateCluster v)
    (fun c s => 2 ≤ c ∧ I s.toStore) (onStore I) := by
  have htake : ∀ c, Triple (fun s => 2 ≤ c ∧ I s.toStore)
      (do Prog.update fun s => { s with lastAllocated := c }
          pure c : FatProg Nat) (fun c s => 2 ≤ c ∧ I s.toStore) (onStore I) := by
    intro c
    refine Triple.bind (Q := fun _ s => 2 ≤ c ∧ I s.toStore) (.update fun s hs => hs) fun _ => ?_
    exact .pure fun s hs => hs
  refine Triple.bind h.freeAfterLast fun r => ?_
  cases r with
  | some c => exact (htake c).pre fun s hs => ⟨hs.1 c rfl, hs.2⟩
  | none =>
    refine Triple.bind ((h.freeFrom v.clusters 2).pre fun s hs => hs.2) fun r => ?_
    cases r with
    | some c => exact (htake c).pre fun s hs => ⟨hs.1 c rfl, hs.2⟩
    | none => exact Triple.fail fun s hs => hs.2

theorem appendCluster {current : Nat} (hcur : P current) (fast : Bool) :
    Keeps (onStore I) (Fat.appendCluster v current fast) := by
  refine .bind (h.get current) fun next => .ite .fail ?_
  refine Triple.bind h.allocateCluster fun c => Triple.lift fun hc => ?_
  refine Keeps.ite ?_ ?_
  · exact .bind (h.set c _ (h.entries c hc)) fun _ => h.set current c hcur
  · refine .bind (h.writeEmptyCluster c) fun _ => .bind (h.set c _ (h.entries c hc)) fun _ => ?_
    exact .bind h.table fun _ => .bind (h.set current c hcur) fun _ => h.table

theorem deleteChain (fuel : Nat) : ∀ c, Keeps (onStore I) (Fat.deleteChain v fuel c) := by
  induction fuel with
  | zero =>
    intro c
    exact .ite .pure .fail
  | succ fuel ih =>
    intro c
    refine Triple.ite (fun _ => .pure fun _ => id) fun hc => ?_
    refine Keeps.bind (.attempt (h.writeEmptyCluster c)) fun _ => .bind (h.get c) fun next => ?_
    exact .bind (.attempt (h.set c 0 (h.entries c (by omega)))) fun _ => ih next

theorem deleteClusters : Keeps (onStore I) (Fat.deleteClusters v c) := by
  refine .bind (h.deleteChain _ c) fun _ => .bind (other fun _ => rfl) fun _ => ?_
  exact .bind (.attempt h.table) fun _ => .pure

theorem clearTail (c used : Nat) : Keeps (onStore I) (Fat.clearTail v c used) := by
  refine Triple.bind (h.cluster c false).attempted fun r => ?_
  cases r with
  | error e => exact .pure fun s hs => hs
  | ok _ =>
    refine Triple.bind (Q := fun _ => onStore J) ?_ fun _ => ?_
    · exact Triple.update fun s hs => h.change s.toStore _ hs.2.2
    · exact Triple.bind h.store.attempted fun r => .pure fun s hs => by cases r <;> exact hs

theorem extraChain (hall : ∀ off, P off) (used left : Nat) :
    ∀ c, Keeps (onStore I) (Fat.extraChain v used left c) := by
  induction left with
  | zero => exact fun c => .pure
  | succ left ih =>
    intro c
    refine .bind (h.get c) fun next => .ite ?_ (ih next)
    refine .bind (.attempt (h.set c _ (hall c))) fun r => ?_
    cases r with
    | error e => exact .pure
    | ok _ => exact Keeps.ite (.bind (h.clearTail c used) fun _ => ih next) (ih next)

theorem deleteAllClusters : Keeps (onStore I) (Fat.deleteAllClusters v fd) := by
  refine .bind .gets fun cluster => .bind (updateFd fd _) fun _ => ?_
  refine .bind (.attempt (h.record fd)) fun r => ?_
  cases r with
  | error e => exact updateFd fd _
  | ok _ => exact h.deleteClusters cluster

theorem deleteExtraClusters (hall : ∀ off, P off) (fd : Nat) :
    Keeps (onStore I) (Fat.deleteExtraClusters v fd) := by
  refine .bind .gets fun cluster => .bind .gets fun size => .bind (updateFd fd _) fun _ => ?_
  refine .ite (h.deleteAllClusters fd) (.bind (h.extraChain hall _ _ cluster) fun r => ?_)
  cases r with
  | none => exact .pure
  | some c => exact .ite (h.deleteClusters c) .pure

/-! ## Directories -/

theorem fixedRootLoop (hit : Bytes → Nat → Bool) (left : Nat) :
    ∀ sector, v.rootSector ≤ sector → Keeps (onStore I) (Fat.fixedRootLoop v fd hit left sector) := by
  induction left with
  | zero => exact fun _ _ => .pure
  | succ left ih =>
    intro sector hsector
    refine .bind (h.block sector (.inr hsector)) fun _ => .bind .gets fun buf => ?_
    cases scanBuffer hit buf (v.bytesPerSector / 32) 0 with
    | found j => exact .bind (updateFd fd _) fun _ => .pure
    | ended => exact .pure
    | more => exact ih (sector + 1) (by omega)

theorem iterateFixedRootDir (wanted : Wanted) :
    Keeps (onStore I) (Fat.iterateFixedRootDir v fd wanted) := by
  refine .bind .gets fun path => .bind (updateFd fd _) fun _ => ?_
  exact h.fixedRootLoop fd _ _ v.rootSector le_rfl

theorem chainLoop (hit : Bytes → Nat → Bool) (limit : Nat) :
    ∀ c, Triple (onStore I) (Fat.chainLoop v fd hit limit c)
      (fun r s => (∀ d, r = .last d → 2 ≤ d) ∧ I s.toStore) (onStore I) := by
  induction limit with
  | zero => exact fun c => .pure fun s hs => ⟨nofun, hs⟩
  | succ limit ih =>
    intro c
    refine Triple.bind ((h.cluster c false).weaken (fun _ => id) fun _ s hs => ⟨hs.1, hs.2.1⟩)
      fun _ => Triple.lift fun hc => ?_
    refine Triple.bind Keeps.gets fun buf => Triple.bind Keeps.gets fun first => ?_
    cases scanBuffer hit buf (v.clusterSize / 32) 0 with
    | found j => exact Triple.bind (updateFd fd _) fun _ => .pure fun s hs => ⟨nofun, hs⟩
    | ended => exact .pure fun s hs => ⟨nofun, hs⟩
    | more =>
      refine Triple.bind (h.get c) fun next => .ite (fun _ => ?_) fun _ => ih next
      exact .pure fun s hs => ⟨fun d hd => by cases hd; exact hc, hs⟩

theorem iterateDir (wanted : Wanted) (c : Nat) :
    Keeps (onStore I) (Fat.iterateDir v fd wanted c) := by
  refine Triple.bind Keeps.gets fun path => Triple.bind (h.chainLoop fd _ _ c) fun r => ?_
  cases r with
  | found | ended | limit => exact .pure fun s hs => hs.2
  | last d =>
    refine .ite (fun _ => ?_) fun _ => .pure fun s hs => hs.2
    refine Triple.pre (.lift fun hd => ?_)
      fun s hs => ⟨hs.1 d rfl, hs.2⟩
    exact Keeps.bind (.attempt (h.appendCluster (h.entries d hd) false)) fun _ => .pure

theorem findRecord (fd i c : Nat) (create : Bool) :
    Keeps (onStore I) (Fat.findRecord v fd i c create) := by
  refine .ite ?_ ?_
  · refine .bind (h.iterateFixedRootDir fd _) fun found => .ite .pure (.ite .fail ?_)
    exact .bind (h.iterateFixedRootDir fd _) fun _ => .pure
  refine .bind (h.iterateDir fd _ c) fun found => .ite .pure (.ite .fail ?_)
  refine .bind (.attempt (h.iterateDir fd none c)) fun r => ?_
  split
  · exact .pure
  · exact .bind (h.iterateDir fd none c) fun _ => .pure

theorem newDirectory (fd parent : Nat) : Keeps (onStore I) (Fat.newDirectory v fd parent) := by
  refine Triple.bind h.allocateCluster fun c => Triple.lift fun hc => ?_
  refine Triple.bind ((h.cluster c true).weaken (fun _ => id) fun _ s hs => hs.2.2) fun _ => ?_
  refine Triple.bind (Triple.update (Q := fun _ => onStore J) fun s hs => h.change s.toStore _ hs)
    fun _ => ?_
  refine Triple.bind (Q := fun _ => onStore J) (.gets fun s hs => hs) fun dir => ?_
  refine Triple.bind (writeTimestamps _ true true) fun dot => ?_
  refine Triple.bind (Triple.update (Q := fun _ => onStore J) fun s hs => h.change s.toStore _ hs)
    fun _ => ?_
  refine Triple.bind h.store fun _ => ?_
  refine Keeps.bind (h.set c _ (h.entries c hc)) fun _ => .bind h.table fun _ => ?_
  exact .bind (updateFd fd _) fun _ => .pure

omit h in
theorem newFile : Keeps (onStore I) (Fat.newFile v fd) := by
  unfold Fat.newFile
  refine .bind .gets fun record => .bind (writeTimestamps record true true) fun record => ?_
  exact .bind (updateFd fd _) fun _ => .pure

theorem createRecord (fd i c : Nat) : Keeps (onStore I) (Fat.createRecord v fd i c) := by
  refine .bind (updateFd fd _) fun _ => .bind .gets fun entry => ?_
  have hlast : ∀ first, Keeps (onStore I) (do
      Fat.updateFd fd fun e => { e with record := nameRecord entry.name first e.record }
      writeRecordBuffer v fd) := fun first => .bind (updateFd fd _) fun _ => h.record fd
  exact .ite (.bind (h.newDirectory fd _) hlast) (.bind (newFile fd) hlast)

theorem fillRecordLoop (create : Bool) (left : Nat) :
    ∀ i c, Keeps (onStore I) (Fat.fillRecordLoop v fd create left i c) := by
  induction left with
  | zero => exact fun i c => .pure
  | succ left ih =>
    intro i c
    refine .bind (h.findRecord fd i c create) fun found => .bind .gets fun used => .ite .fail ?_
    have hnext : Keeps (onStore I) (do
        let record ← Prog.gets fun s => (s.fd fd).record
        if left ≠ 0 ∧ record 11 &&& 0x10 = 0 then throw .invalidFileName
        else Fat.fillRecordLoop v fd create left (i + 1) (firstCluster record)) :=
      .bind .gets fun record => .ite .fail (ih _ _)
    exact .ite (.bind (h.createRecord fd i c) fun _ => hnext) hnext

theorem fillRecordBuffer : Keeps (onStore I) (Fat.fillRecordBuffer v fd) := by
  exact .bind .gets fun create => .bind .gets fun entries => h.fillRecordLoop fd create _ _ _

/-! ## Opening, closing and seeking -/

omit h in
theorem checkFd (fd : Int) (opened : Bool) : Keeps (onStore I) (Fat.checkFd v fd opened) := by
  unfold Fat.checkFd growFds fatMalloc
  refine .ite .pure (.bind .gets fun entries => .ite ?_ .gets)
  refine .bind (.bind (.act fun s hs => hs) fun ok => ?_) fun ok => .ite .gets .pure
  exact .ite (.bind (other fun _ => rfl) fun _ => .pure) .pure

omit h in
theorem checkOpened (fd : Int) : Keeps (onStore I) (Fat.checkOpened v fd) := by
  unfold Fat.checkOpened
  exact .bind .gets fun ready => .ite .fail (.bind (checkFd fd true) fun ok => .ite .pure .fail)

omit h in
theorem fillPath : Keeps (onStore I) (Fat.fillPath name) := by
  refine Keeps.act fun s hs => ?_
  cases fillPathBuffer s.path name <;> exact hs

theorem truncateOpened : Keeps (onStore I) (Fat.truncateOpened v fd) := by
  refine .bind .gets fun entry => .ite .pure (.ite .fail (.ite ?_ .pure))
  refine .bind (writeTimestamps _ false true) fun record => .bind (updateFd fd _) fun _ => ?_
  refine .bind (.attempt (h.record fd)) fun r => ?_
  cases r with
  | error e => exact .fail
  | ok _ => exact .ite (h.deleteClusters _) .pure

theorem openRecord : Keeps (onStore I) (Fat.openRecord v fd) := by
  refine .bind .gets fun mode => .bind .gets fun written => ?_
  have hlast : Keeps (onStore I) (do
      Fat.truncateOpened v fd
      Fat.updateFd fd fun e => { e with opened := true }) :=
    .bind (h.truncateOpened fd) fun _ => updateFd fd _
  have hfill : Keeps (onStore I) (do
      if mode.rootDir = false then Fat.fillRecordBuffer v fd
      Fat.truncateOpened v fd
      Fat.updateFd fd fun e => { e with opened := true }) :=
    .ite (.bind (h.fillRecordBuffer fd) fun _ => hlast) hlast
  refine Triple.ite (fun hc => ?_) fun _ => hfill
  exact Keeps.bind (h.info hc.2.1) fun _ => .bind (other fun _ => rfl) fun _ => hfill

theorem fatOpen (fd : Int) (name mode : Option (List UInt8)) :
    Keeps (onStore I) (Fat.fatOpen v fd name mode) := by
  refine .bind .gets fun ready => .ite .fail (.bind (checkFd fd false) fun ok => ?_)
  split
  · refine .bind (updateFd _ _) fun _ => ?_
    split
    · exact .fail
    · exact .fail
    · split
      · exact .fail
      · refine .bind (updateFd _ _) fun _ => .bind (fillPath _) fun filled => ?_
        refine .ite (h.openRecord _) (.ite .fail (.bind (updateFd _ _) fun _ => h.openRecord _))
  · exact .fail

omit h in
theorem fatClose (fd : Int) : Keeps (onStore I) (Fat.fatClose v fd) := by
  unfold Fat.fatClose
  refine .bind .gets fun ready => .ite .fail (.bind (checkFd fd true) fun ok => ?_)
  have hlast : ∀ ok : Bool, Keeps (onStore I) (if ok then
      Fat.updateFd fd.toNat fun e => { e with opened := false } else throw .invalidParameters) :=
    fun ok => .ite (updateFd _ _) .fail
  exact .ite (.bind .pure hlast) (.bind (checkFd fd false) hlast)

omit h in
theorem fatEof (fd : Int) : Keeps (onStore I) (Fat.fatEof v fd) := by
  unfold Fat.fatEof
  exact .bind .gets fun ready => .ite .pure (.bind (checkFd fd true) fun ok => .ite .gets .pure)

omit h in
theorem fatTell (fd : Int) : Keeps (onStore I) (Fat.fatTell v fd) := by
  unfold Fat.fatTell
  exact .bind (checkOpened fd) fun _ => .gets

omit h in
theorem fatSeek (fd offset whence : Int) : Keeps (onStore I) (Fat.fatSeek v fd offset whence) := by
  unfold Fat.fatSeek
  refine .bind (checkOpened fd) fun _ => .bind .gets fun entry => ?_
  split
  · exact .fail
  · exact updateFd _ _

theorem freeClusters (left : Nat) : ∀ i, Keeps (onStore I) (Fat.freeClusters v left i) := by
  induction left with
  | zero => exact fun i => .pure
  | succ left ih =>
    intro i
    exact .bind (h.get i) fun val => .bind (ih (i + 1)) fun rest => .pure

theorem countLoop (hfat : v.type = .fat32) (left : Nat) : ∀ i offset prev free next,
    i + left ≤ v.clusters + 2 → Keeps (onStore I) (Fat.countLoop v left i offset prev free next) := by
  induction left with
  | zero => exact fun i offset prev free next _ => .pure
  | succ left ih =>
    intro i offset prev free next hi
    refine .bind .gets fun val => .ite (.bind (.attempt (h.window _ hfat (by omega))) fun r => ?_)
      (ih _ _ _ _ _ (by omega))
    cases r with
    | error e => exact .pure
    | ok offset => exact ih _ _ _ _ _ (by omega)

theorem computeFsInfo (hfat : v.type = .fat32) : Keeps (onStore I) (Fat.computeFsInfo v) := by
  refine .bind (.attempt (h.window 0 hfat (by omega))) fun r => ?_
  cases r with
  | error e => exact .pure
  | ok offset =>
    refine .bind (h.countLoop hfat _ 0 offset 0 0 _ (by omega)) fun r => ?_
    cases r with
    | none => exact .pure
    | some p => exact other fun _ => rfl

theorem freeCount : Keeps (onStore I) (Fat.freeCount v) := by
  refine Triple.ite (fun _ => h.freeClusters _ 2) fun hfat => Keeps.bind .gets fun known => ?_
  exact .ite (.bind (h.computeFsInfo (not_not.mp hfat)) fun _ => .gets) .pure

theorem volumeInformation : Keeps (onStore I) (Fat.volumeInformation v) := by
  refine .bind (.act fun s hs => hs) fun r => ?_
  refine .bind (.update fun s hs => h.forget s.toStore _ hs) fun _ => .ite .fail ?_
  exact .bind .gets fun buf => .bind h.freeCount fun free => .ite .fail .pure

theorem truncateFile (hall : ∀ off, P off) (fd size : Nat) :
    Keeps (onStore I) (Fat.truncateFile v fd size) := by
  refine .bind .gets fun entry => .ite ?_ .pure
  refine .bind (writeTimestamps _ false true) fun record => .bind (updateFd fd _) fun _ => ?_
  refine .bind (.attempt (h.record fd)) fun r => ?_
  cases r with
  | error e => exact .bind (updateFd fd _) fun _ => .fail
  | ok _ => exact h.deleteExtraClusters hall fd

theorem fatControl (hall : ∀ off, P off) (fd : Int) (write : Bool) (record : Bytes) :
    Keeps (onStore I) (Fat.fatControl v fd write record) := by
  refine .bind .gets fun ready => .ite .fail (.ite h.volumeInformation ?_)
  refine .bind (checkFd fd true) fun ok => .bind .gets fun entry => ?_
  refine .ite .fail (.ite .fail (.ite .pure (.bind (updateFd _ _) fun _ => ?_)))
  refine .bind (.attempt (h.record _)) fun r => ?_
  cases r with
  | error e => exact .fail
  | ok _ => exact .bind (h.truncateFile hall _ _) fun _ => .pure

omit h in
theorem reported {m : FatProg Transfer} (hm : Keeps (onStore I) m) :
    Keeps (onStore I) (Fat.reported m) := by
  unfold Fat.reported
  refine .bind (.attempt hm) fun r => ?_
  cases r <;> exact .pure

theorem readRootLoop (limit fuel : Nat) : ∀ sector offset done data, v.rootSector ≤ sector →
    Keeps (onStore I) (Fat.readRootLoop v limit fuel sector offset done data) := by
  induction fuel with
  | zero => exact fun _ _ _ _ _ => .pure
  | succ fuel ih =>
    intro sector offset done data hsector
    refine .ite .pure (.ite .pure (.bind (.attempt (h.block sector (.inr hsector))) fun r => ?_))
    cases r with
    | error e => exact .pure
    | ok _ => exact .bind .gets fun buf => ih _ _ _ _ (by omega)

theorem readFixedRootDir (fd requested : Nat) :
    Keeps (onStore I) (Fat.readFixedRootDir v fd requested) := by
  refine .bind .gets fun offset => .ite (.bind (updateFd fd _) fun _ => .pure) ?_
  refine .bind (h.readRootLoop _ _ _ _ _ _ (Nat.le_add_right _ _)) fun r => ?_
  exact .bind (updateFd fd _) fun _ => .pure

theorem findCluster (isDir : Bool) (index left : Nat) :
    ∀ i c, Keeps (onStore I) (Fat.findCluster v isDir index left i c) := by
  induction left with
  | zero => exact fun _ _ => .fail
  | succ left ih =>
    intro i c
    exact .ite .pure (.bind (h.get c) fun next => .ite .pure (.ite .fail (ih _ _)))

theorem readLoop (fd limit fuel : Nat) : ∀ c offset done data,
    Keeps (onStore I) (Fat.readLoop v fd limit fuel c offset done data) := by
  induction fuel with
  | zero => exact fun _ _ _ _ => .pure
  | succ fuel ih =>
    intro c offset done data
    refine .ite .pure (.bind (.attempt (h.readCluster c false)) fun r => ?_)
    cases r with
    | error e => exact .pure
    | ok _ =>
      refine .bind (updateFd fd _) fun _ => .bind .gets fun buf => .bind (h.get c) fun next => ?_
      exact .ite .pure (ih _ _ _ _)

theorem readChain (fd c fileSize requested : Nat) (isDir : Bool) :
    Keeps (onStore I) (Fat.readChain v fd c fileSize requested isDir) := by
  refine .bind .gets fun entry => .bind (h.findCluster _ _ _ _ _) fun c => ?_
  exact .bind (h.readLoop _ _ _ _ _ _ _) fun r => .bind (updateFd fd _) fun _ => .pure

theorem fatRead (fd : Int) (requested : Nat) : Keeps (onStore I) (Fat.fatRead v fd requested) := by
  refine reported (.bind (checkOpened fd) fun _ => .bind .gets fun entry => ?_)
  refine .ite .pure (.ite (h.readFixedRootDir _ _) (.ite ?_ (h.readChain _ _ _ _ _)))
  exact .bind (updateFd _ _) fun _ => .pure

theorem firstWriteCluster : Keeps (onStore I) (Fat.firstWriteCluster v fd) := by
  refine Triple.bind h.allocateCluster fun c => Triple.lift fun hc => ?_
  have hset := fun val => h.set c val (h.entries c hc)
  refine Keeps.bind (hset _) fun _ => .bind h.table fun _ => .bind (updateFd fd _) fun _ => ?_
  refine .bind (.attempt (h.record fd)) fun r => ?_
  cases r with
  | error e =>
    refine .bind (.attempt (hset _)) fun _ => .bind (.attempt h.table) fun _ => ?_
    exact .bind (updateFd fd _) fun _ => .fail
  | ok _ => exact .pure

theorem extendLoop (hall : ∀ off, P off) (index clusters : Nat) (known : Bool) (left : Nat) :
    ∀ i c first, Keeps (onStore I) (Fat.extendLoop v index clusters known left i c first) := by
  induction left with
  | zero => exact fun _ _ _ => .pure
  | succ left ih =>
    intro i c first
    refine .ite .pure (.bind (h.get c) fun next => .ite (.ite .pure ?_) (.ite .pure (ih _ _ _)))
    refine .bind (.attempt (h.appendCluster (hall c) true)) fun r => ?_
    cases r with
    | error e => exact .pure
    | ok _ => exact .bind (h.get c) fun next => .ite .pure (ih _ _ _)

theorem writeLoop (fd requested originalSize : Nat) (data : Option Bytes) (fuel : Nat) :
    ∀ w, Keeps (onStore I) (Fat.writeLoop v fd requested originalSize data fuel w) := by
  induction fuel with
  | zero =>
    intro w
    exact .ite .pure .fail
  | succ fuel ih =>
    intro w
    refine .ite .pure (.bind .gets fun fdOffset => ?_)
    refine Triple.bind (h.cluster w.cluster _).attempted fun r => ?_
    cases r with
    | error e => exact .pure fun s hs => hs
    | ok _ =>
      refine Triple.bind (Q := fun _ => onStore J) (.update fun s hs => hs.2.2) fun _ => ?_
      refine Triple.bind (Q := fun _ => onStore J)
        (.update fun s hs => h.change s.toStore _ hs) fun _ => ?_
      refine Triple.bind h.store.attempted fun r => ?_
      cases r with
      | error e => exact .pure fun s hs => hs
      | ok _ => exact Keeps.bind (h.get _) fun next => .ite .pure (ih _)

theorem storeRecord (fd written : Nat) : Keeps (onStore I) (Fat.storeRecord v fd written) := by
  refine .bind .gets fun entry => .bind (writeTimestamps _ false true) fun record => ?_
  refine .bind (updateFd fd _) fun _ => .bind (.attempt (h.record fd)) fun r => ?_
  cases r with
  | ok _ => exact .pure
  | error e => exact .bind (updateFd fd _) fun _ => .pure

theorem finishWrite (hall : ∀ off, P off) (fd requested written : Nat) :
    Keeps (onStore I) (Fat.finishWrite v fd requested written) := by
  refine .bind (h.storeRecord fd written) fun r => .bind ?_ fun r => ?_
  · exact .ite (.bind (h.deleteExtraClusters hall fd) fun _ => .pure) .pure
  · exact .bind (updateFd fd _) fun _ => .pure

theorem writeClusters (hall : ∀ off, P off) (fd requested seekBytes originalSize fileSize c : Nat)
    (data : Option Bytes) :
    Keeps (onStore I) (Fat.writeClusters v fd requested seekBytes originalSize fileSize c data) := by
  refine .bind .gets fun entry => .bind (h.extendLoop hall _ _ _ _ _ _ _) fun r => ?_
  refine .bind (.attempt h.table) fun r => ?_
  cases r with
  | error e => exact .fail
  | ok _ =>
    refine .ite (.bind (h.deleteExtraClusters hall fd) fun _ => .pure) (.bind ?_ fun written => ?_)
    · exact .bind .gets fun offset => .ite (h.writeLoop _ _ _ _ _ _) .pure
    · exact h.finishWrite hall fd requested written

theorem fatWrite (hall : ∀ off, P off) (fd : Int) (requested : Nat) (data : Option Bytes) :
    Keeps (onStore I) (Fat.fatWrite v fd requested data) := by
  refine reported (.bind (checkOpened fd) fun _ => .bind .gets fun entry => ?_)
  refine .ite .fail (.ite .fail (.bind (updateFd _ _) fun _ => ?_))
  have hfrom := fun c seekBytes originalSize fileSize =>
    h.writeClusters hall fd.toNat requested seekBytes originalSize fileSize c data
  refine .ite (h.finishWrite hall _ _ _) (.ite (.bind (h.firstWriteCluster _) fun c => ?_) ?_)
  · exact hfrom _ _ _ _
  · exact .bind .pure fun c => hfrom _ _ _ _

/-! ## Removing and renaming -/

theorem emptyLoop (limit : Nat) : ∀ c first, Keeps (onStore I) (Fat.emptyLoop v limit c first) := by
  induction limit with
  | zero => exact fun _ _ => .fail
  | succ limit ih =>
    intro c first
    refine .bind (h.readCluster c false) fun _ => .bind .gets fun buf => ?_
    split
    · exact .pure
    · exact .fail
    · exact .bind (h.get c) fun next => .ite .pure (ih _ _)

theorem checkRemovable (isDir : Bool) (record : Bytes) :
    Keeps (onStore I) (Fat.checkRemovable v isDir record) := by
  exact .ite .fail (.ite .fail (.ite .fail (.ite (h.emptyLoop _ _ _) .pure)))

theorem fatRemove : Keeps (onStore I) (Fat.fatRemove v name) := by
  refine .bind .gets fun ready => .ite .fail (.bind .gets fun fd => .bind (updateFd fd _) fun _ => ?_)
  refine .bind (fillPath name) fun filled => .ite .fail (.bind (h.fillRecordBuffer fd) fun _ => ?_)
  refine .bind .gets fun record => .bind .gets fun entries => .ite .fail (.bind .gets fun isDir => ?_)
  refine .bind (h.checkRemovable isDir record) fun _ => .bind (updateFd fd _) fun _ => ?_
  exact .bind (h.record fd) fun _ => h.deleteClusters _

omit h in
theorem renamePath : Keeps (onStore I) (Fat.renamePath name) := by
  unfold Fat.renamePath
  exact .bind (fillPath name) fun filled => .ite .pure .fail

omit h in
theorem sameParents (oldName newName : List UInt8) (left : Nat) :
    ∀ i, Keeps (onStore I) (Fat.sameParents oldName newName left i) := by
  induction left with
  | zero => exact fun _ => .pure
  | succ left ih =>
    intro i
    unfold Fat.sameParents
    have hcompare : Keeps (onStore I) (do
        let name ← Prog.gets fun s => componentName s i
        Fat.renamePath oldName
        let name' ← Prog.gets fun s => componentName s i
        if name' ≠ name then throw .invalidParameters
        else Fat.sameParents oldName newName left (i + 1)) :=
      .bind .gets fun name => .bind (renamePath oldName) fun _ => .bind .gets fun name' =>
        .ite .fail (ih _)
    exact .ite (.bind (renamePath newName) fun _ => hcompare) hcompare

theorem newNameFree : Keeps (onStore I) (Fat.newNameFree v fd) := by
  refine .bind (.attempt (h.fillRecordBuffer fd)) fun r => ?_
  split
  · exact .fail
  · exact .pure
  · exact .fail

theorem fatRename (oldName newName : List UInt8) :
    Keeps (onStore I) (Fat.fatRename v oldName newName) := by
  refine .bind .gets fun ready => .ite .fail (.bind .gets fun fd => .bind (updateFd fd _) fun _ => ?_)
  refine .bind (renamePath oldName) fun _ => .bind .gets fun entries => .ite .fail ?_
  refine .bind .gets fun isDir => .bind (h.fillRecordBuffer fd) fun _ => ?_
  refine .bind (renamePath newName) fun _ => .bind .gets fun entries' => .bind .gets fun isDir' => ?_
  refine .ite .fail (.ite .fail (.bind (h.newNameFree fd) fun _ => .bind .gets fun name => ?_))
  refine .bind (sameParents oldName newName _ 0) fun _ => .bind (renamePath oldName) fun _ => ?_
  refine .bind (h.fillRecordBuffer fd) fun _ => .bind (updateFd fd _) fun _ => h.record fd

theorem call (hall : ∀ off, P off) (c : FatCall) : Keeps (onStore I) (FatCall.run v c) := by
  cases c with
  | close fd => exact fatClose fd
  | control fd write record => exact .bind (h.fatControl hall fd write record) fun _ => .pure
  | eof fd => exact .bind (fatEof fd) fun _ => .pure
  | openFile fd name mode => exact h.fatOpen fd name mode
  | read fd size => exact .bind (h.fatRead fd size) fun _ => .pure
  | remove name => exact h.fatRemove name
  | rename oldName newName => exact h.fatRename oldName newName
  | seek fd offset whence => exact fatSeek fd offset whence
  | tell fd => exact .bind (fatTell fd) fun _ => .pure
  | write fd size data => exact .bind (h.fatWrite hall fd size data) fun _ => .pure

end Kept

end Dancy.Fat
