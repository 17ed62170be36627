import Dancy.Fat.Kept
import Mathlib.Data.Nat.ModEq

/-!
# The areas of a volume

Sectors are places of the device, the tables lie before the root directory and
the clusters, and whatever is done with the tables leaves the rest of the
device and the two other buffers as they are.
-/

namespace Dancy.Fat

open Lib List Option

variable {v : Volume} {st st' : Store}

/-! ## Places -/

theorem place_mul (v : Volume) (sector : Nat) :
    sector * v.ioMul * v.blockSize = sector * v.bytesPerSector := by
  rw [mul_assoc, ioMul_mul_blockSize]

theorem sectorOf_eq (v : Volume) (c : Nat) :
    v.sectorOf c = v.dataStart + (c - 2) * v.clusterSectors := by
  have := dataStart_add v
  unfold Volume.sectorOf
  omega

def Volume.IsCluster (v : Volume) (c : Nat) : Prop := 2 ≤ c ∧ c - 2 < v.clusters

theorem rootSector_le_sectorOf (v : Volume) (c : Nat) : v.rootSector ≤ v.sectorOf c := by
  have := dataStart_eq v
  rw [sectorOf_eq]
  omega

def Volume.OutsideBytes (v : Volume) (a : Nat) : Prop :=
  a < v.reservedSectors * v.bytesPerSector ∨ v.rootSector * v.bytesPerSector ≤ a

theorem outsideBytes_sector {sector j : Nat} (h : v.OutsideTables sector) (hj : j < v.bytesPerSector) :
    v.OutsideBytes (sector * v.bytesPerSector + j) := by
  rcases h with h | h
  · left
    calc sector * v.bytesPerSector + j < (sector + 1) * v.bytesPerSector := by
          rw [add_mul]
          omega
      _ ≤ _ := Nat.mul_le_mul_right _ h
  · right
    exact (Nat.mul_le_mul_right _ h).trans (Nat.le_add_right _ _)

theorem outsideBytes_cluster (c j : Nat) :
    v.OutsideBytes (v.sectorOf c * v.bytesPerSector + j) :=
  .inr ((Nat.mul_le_mul_right _ (rootSector_le_sectorOf v c)).trans (Nat.le_add_right _ _))

theorem read_spec {I : Store → Prop} {E : FatInstance → Prop} (lba : Nat) :
    Triple (onStore I) (fatIoRead v lba)
      (fun r s => (r.1 = true → ∀ j, r.2 j = s.disk (lba * v.blockSize + j)) ∧ I s.toStore) E := by
  refine .act fun s hs => ⟨fun hok j => ?_, hs⟩
  show (if v.device.readOk s.tick lba then fun j => s.disk (lba * v.blockSize + j)
    else v.device.noise s.tick) j = _
  rw [if_pos hok]

theorem dirtyRuns_sound {dirty : Nat → Bool} (left : Nat) : ∀ {k i n : Nat},
    (i, n) ∈ dirtyRuns dirty left k →
      k ≤ i ∧ 0 < n ∧ i + n ≤ k + left ∧ ∀ m, i ≤ m → m < i + n → dirty m = true := by
  induction left with
  | zero => exact nofun
  | succ left ih =>
    intro k i n h
    unfold dirtyRuns at h
    have htail : ∀ {i n : Nat}, (i, n) ∈ dirtyRuns dirty left (k + 1) →
        k ≤ i ∧ 0 < n ∧ i + n ≤ k + (left + 1) ∧ ∀ m, i ≤ m → m < i + n → dirty m = true := by
      intro i n hin
      obtain ⟨h1, h2, h3, h4⟩ := ih hin
      exact ⟨by omega, h2, by omega, h4⟩
    by_cases hk : dirty k = true
    · rw [if_pos hk] at h
      -- the run that starts here, alone or before the next one
      have hone : ∀ m, k ≤ m → m < k + 1 → dirty m = true := by
        intro m hm hm'
        rwa [show m = k by omega]
      rcases hruns : dirtyRuns dirty left (k + 1) with _ | ⟨⟨j, n'⟩, rest⟩
      · rw [hruns] at h
        cases mem_singleton.mp h
        exact ⟨le_rfl, Nat.one_pos, by omega, hone⟩
      rw [hruns] at h htail
      simp only at h
      obtain ⟨-, hpos, hlast, hdirty⟩ := htail (n := n') mem_cons_self
      by_cases hj : j = k + 1
      · rw [if_pos hj] at h
        rcases mem_cons.mp h with h | h
        · cases h
          refine ⟨le_rfl, by omega, by omega, fun m hm hm' => ?_⟩
          by_cases hmk : m = k
          · rwa [hmk]
          · exact hdirty m (by omega) (by omega)
        · exact htail (.tail _ h)
      · rw [if_neg hj] at h
        rcases mem_cons.mp h with h | h
        · cases h
          exact ⟨le_rfl, Nat.one_pos, by omega, hone⟩
        · exact htail h
    · rw [if_neg hk] at h
      exact htail h

/-- Where the buffer of the table is, and that the changed sectors are sectors of
the table. -/
structure TablePlace (v : Volume) (st : Store) : Prop where
  full : v.type ≠ .fat32 → st.tableOffset = 0
  dirty : ∀ i, i < v.tableEntries → st.tableSectors i = true →
    st.tableOffset / v.bytesPerSector + i < v.tableSectors

structure TableMoved (v : Volume) (st st' : Store) : Prop where
  place : TablePlace v st'
  disk : ∀ a, v.OutsideBytes a → st'.disk a = st.disk a
  blockBuffer : st'.blockBuffer = st.blockBuffer
  blockBufferLba : st'.blockBufferLba = st.blockBufferLba
  clusterBuffer : st'.clusterBuffer = st.clusterBuffer
  clusterBufferLba : st'.clusterBufferLba = st.clusterBufferLba
  clusterSector : st'.clusterSector = st.clusterSector

theorem TableMoved.refl (h : TablePlace v st) : TableMoved v st st :=
  ⟨h, fun _ _ => rfl, rfl, rfl, rfl, rfl, rfl⟩

theorem TableMoved.table (h : TableMoved v st st') {b : Bytes} {dirty : Nat → Bool} {off : Nat}
    (hplace : TablePlace v { st' with tableBuffer := b, tableSectors := dirty, tableOffset := off }) :
    TableMoved v st { st' with tableBuffer := b, tableSectors := dirty, tableOffset := off } :=
  ⟨hplace, h.disk, h.blockBuffer, h.blockBufferLba, h.clusterBuffer, h.clusterBufferLba, h.clusterSector⟩

theorem TablePlace.clear (h : TablePlace v st) (b : Bytes) :
    TablePlace v { st with tableBuffer := b, tableSectors := fun _ => false } :=
  ⟨h.full, fun _ _ hi => nomatch hi⟩

/-! ## Work on the tables -/

theorem tableMoved_write {sector n : Nat} {buf : Bytes} {i : Nat}
    (hlow : v.reservedSectors ≤ sector) (hhigh : sector + n ≤ v.rootSector) :
    Keeps (onStore (TableMoved v st))
      (fatIoWrite v (sector * v.ioMul) buf i (n * v.bytesPerSector)) := by
  refine Keeps.act fun s hs => ?_
  have hcopy : ∀ (src : Bytes) (j a : Nat), v.OutsideBytes a →
      s.disk.copy (sector * v.ioMul * v.blockSize) src j (n * v.bytesPerSector) a = s.disk a := by
    intro src j a ha
    refine Bytes.copy_outside ?_
    rw [place_mul, ← add_mul]
    rcases ha with ha | ha
    · exact .inl (ha.trans_le (Nat.mul_le_mul_right _ hlow))
    · exact .inr ((Nat.mul_le_mul_right _ hhigh).trans ha)
  refine ⟨⟨hs.place.full, hs.place.dirty⟩, fun a ha => ?_, hs.blockBuffer, hs.blockBufferLba,
    hs.clusterBuffer, hs.clusterBufferLba, hs.clusterSector⟩
  rw [← hs.disk a ha]
  show (if _ then _ else _ : Bytes) a = _
  split <;> exact hcopy _ _ a ha

theorem tableMoved_writeRuns (primary : Bool) (first : Nat) (runs : List (Nat × Nat))
    (h : ∀ p ∈ runs, v.reservedSectors ≤ first + p.1 ∧ first + p.1 + p.2 ≤ v.rootSector) :
    Keeps (onStore (TableMoved v st)) (writeRuns v primary first runs) := by
  induction runs with
  | nil => exact .pure
  | cons p runs ih =>
    obtain ⟨hlow, hhigh⟩ := h _ mem_cons_self
    refine .bind .gets fun buf => .bind (tableMoved_write hlow hhigh) fun ok => .ite ?_ ?_
    · exact .bind (Kept.other fun _ => rfl) fun _ => .fail
    · exact ih fun p hp => h p (.tail _ hp)

/-- The runs lie in the primary table, and as far behind in the secondary one. -/
theorem TablePlace.runs (h : TablePlace v st) {p : Nat × Nat}
    (hp : p ∈ dirtyRuns st.tableSectors v.tableEntries 0) :
    st.tableOffset / v.bytesPerSector + p.1 + p.2 ≤ v.tableSectors := by
  obtain ⟨-, hpos, hlast, hdirty⟩ := dirtyRuns_sound _ hp
  have := h.dirty (p.1 + p.2 - 1) (by omega) (hdirty _ (by omega) (by omega))
  omega

theorem rootSector_tables (v : Volume) :
    v.reservedSectors + v.tableSectors ≤ v.rootSector ∧
      (¬v.tables < 2 → v.rootSector = v.reservedSectors + v.tableSectors + v.tableSectors) := by
  unfold Geometry.rootSector
  rcases v.accepted.tables with h | h <;> rw [h] <;> omega

theorem tableMoved_writeTable : Triple (onStore (TableMoved v st)) (writeTable v)
    (fun _ s => TableMoved v st s.toStore ∧ s.tableSectors = fun _ => false)
    (onStore (TableMoved v st)) := by
  intro s hs
  have htables := rootSector_tables v
  have hplace : ∀ p ∈ dirtyRuns s.tableSectors v.tableEntries 0,
      s.tableOffset / v.bytesPerSector + p.1 + p.2 ≤ v.tableSectors :=
    fun p hp => hs.place.runs hp
  have hclear : Triple (onStore (TableMoved v st)) clearSectors
      (fun _ s => TableMoved v st s.toStore ∧ s.tableSectors = fun _ => false)
      (onStore (TableMoved v st)) :=
    .update fun s hs => ⟨hs.table (hs.place.clear s.tableBuffer), rfl⟩
  have hbody : Triple (onStore (TableMoved v st)) (do
      writeRuns v true (v.reservedSectors + s.tableOffset / v.bytesPerSector)
        (dirtyRuns s.tableSectors v.tableEntries 0)
      if v.tables < 2 then clearSectors
      else do
        writeRuns v false (v.reservedSectors + s.tableOffset / v.bytesPerSector + v.tableSectors)
          (dirtyRuns s.tableSectors v.tableEntries 0)
        clearSectors : FatProg PUnit) (fun _ s => TableMoved v st s.toStore ∧ s.tableSectors = fun _ => false)
      (onStore (TableMoved v st)) := by
    refine Triple.bind (tableMoved_writeRuns _ _ _ fun p hp => ?_) fun _ => .ite (fun _ => hclear)
      fun htwo => .bind (tableMoved_writeRuns _ _ _ fun p hp => ?_) fun _ => hclear
    all_goals
      have hp' := hplace p hp
      generalize s.tableOffset / v.bytesPerSector = q at hp' ⊢
      omega
  exact hbody s hs

theorem tableMoved_fetch (lba size off : Nat) :
    Triple (fun s => TableMoved v st s.toStore ∧ s.tableOffset = off) (fetchTable v lba size)
      (fun _ s => TableMoved v st s.toStore ∧ s.tableOffset = off) (onStore (TableMoved v st)) := by
  refine Triple.bind (Q := fun _ s => TableMoved v st s.toStore ∧ s.tableOffset = off)
    (.act fun s hs => hs) fun r => ?_
  refine Triple.bind (Q := fun _ s => TableMoved v st s.toStore ∧ s.tableOffset = off)
    (.update fun s hs => ?_) fun _ => ?_
  · exact ⟨hs.1.table ⟨hs.1.place.full, hs.1.place.dirty⟩, hs.2⟩
  · exact .ite (fun _ => .pure fun s hs => hs) fun _ => .fail fun s hs => hs.1

theorem tableMoved_load (hfat : v.type = .fat32) (off : Nat) :
    Triple (fun s => TableMoved v st s.toStore ∧ s.tableSectors = fun _ => false)
      (loadTableBuffer v off) (fun _ s => TableMoved v st s.toStore ∧ s.tableOffset = off)
      (onStore (TableMoved v st)) := by
  have hclean : ∀ {s : Store} {b : Bytes}, s.tableSectors = (fun _ => false) →
      TablePlace v { s with tableBuffer := b, tableOffset := off } :=
    fun hs => ⟨fun h => absurd hfat h, fun i _ hi => by cases (congrFun hs i).symm.trans hi⟩
  refine Triple.bind (Q := fun _ s => (TableMoved v st s.toStore ∧ s.tableSectors = fun _ => false) ∧
    s.tableOffset = off) (.update fun s hs => ⟨⟨hs.1.table (hclean hs.2), hs.2⟩, rfl⟩) fun _ => ?_
  refine .ite (fun _ => ?_) fun _ => (tableMoved_fetch _ _ off).pre fun s hs => ⟨hs.1.1, hs.2⟩
  refine Triple.bind (Q := fun _ s => TableMoved v st s.toStore ∧ s.tableOffset = off)
    (.update fun s hs => ⟨hs.1.1.table (b := fun _ => 0) ⟨hs.1.1.place.full, hs.1.1.place.dirty⟩, hs.2⟩)
    fun _ => ?_
  refine .ite (fun _ => ?_) fun _ => tableMoved_fetch _ _ off
  refine Triple.bind (Q := fun _ => onStore (TableMoved v st)) (.update fun s hs => hs.1) fun _ => ?_
  exact .fail fun s hs => hs

theorem tableMoved_window (hfat : v.type = .fat32) (off : Nat) :
    Triple (onStore (TableMoved v st)) (readTableBuffer v off)
      (fun add s => add = off % 0x20000 ∧ s.tableOffset = off / 0x20000 * 0x20000 ∧
        TableMoved v st s.toStore) (onStore (TableMoved v st)) := by
  refine Triple.bind (Q := fun w s => s.tableOffset = w ∧ TableMoved v st s.toStore)
    (.gets fun s hs => ⟨rfl, hs⟩) fun w => .ite (fun hw => ?_) fun _ => ?_
  · exact .pure fun s hs => ⟨rfl, hs.1.trans hw, hs.2⟩
  refine Triple.bind (tableMoved_writeTable.pre fun s hs => hs.2).attempted fun r => ?_
  cases r with
  | error e =>
    refine Triple.bind ?_ fun _ => .fail fun s hs => hs
    exact .update fun s hs => TableMoved.table hs (hs.place.clear _)
  | ok _ =>
    refine Triple.bind (tableMoved_load hfat _) fun _ => .pure fun s hs => ?_
    exact ⟨rfl, hs.2, hs.1⟩

theorem tableMoved_get (off : Nat) : Keeps (onStore (TableMoved v st)) (getTableValue v off) := by
  refine .ite .pure ?_
  rcases hfat : v.type
  · exact .gets
  · exact .gets
  · refine Triple.bind (tableMoved_window hfat _).attempted fun r => ?_
    cases r with
    | error e => exact .pure fun s hs => hs
    | ok add => exact .gets fun s hs => hs.2.2

theorem TablePlace.mark (h : TablePlace v st) (b : Bytes) {sec : Nat}
    (hsec : st.tableOffset / v.bytesPerSector + sec < v.tableSectors) :
    TablePlace v { st with tableBuffer := b, tableSectors := markSector st.tableSectors sec } := by
  refine ⟨h.full, fun i hi hdirty => ?_⟩
  simp only [markSector, Bool.or_eq_true, decide_eq_true_eq] at hdirty
  rcases hdirty with rfl | hdirty
  · exact hsec
  · exact h.dirty i hi hdirty

theorem sector_of_place {a : Nat} (h : a < v.tableSize) : a / v.bytesPerSector < v.tableSectors :=
  (Nat.div_lt_iff_lt_mul (bytesPerSector_pos v)).mpr h

theorem tableMoved_set (off val : Nat) :
    Keeps (onStore (TableMoved v st)) (setTableValue v off val) := by
  refine Triple.ite (fun _ => .fail fun s hs => hs) fun hoff => ?_
  rcases hfat : v.type
  · -- an entry may go on into the next sector
    refine .update fun s hs => ?_
    have hsize := v.accepted.table12 hfat
    have h0 : s.tableOffset = 0 := hs.place.full (by rw [hfat]; nofun)
    have hsec : (off + off / 2) / v.bytesPerSector < v.tableSectors := sector_of_place (by omega)
    have hmark : ∀ sec, sec < v.tableSectors → s.tableOffset / v.bytesPerSector + sec < v.tableSectors := by
      intro sec hlt
      rwa [h0, Nat.zero_div, zero_add]
    refine hs.table ?_
    by_cases hlast : off + off / 2 = v.bytesPerSector - 1
    · have hnext : (off + off / 2 + 1) / v.bytesPerSector < v.tableSectors := sector_of_place (by omega)
      have hfirst : (off + off / 2) / v.bytesPerSector = 0 :=
        Nat.div_eq_of_lt (by have := bytesPerSector_pos v; omega)
      have hone : off + off / 2 + 1 = v.bytesPerSector := by
        have := bytesPerSector_pos v
        omega
      rw [hone, Nat.div_self (bytesPerSector_pos v)] at hnext
      rw [if_pos hlast, hfirst]
      exact (hs.place.mark s.tableBuffer (hmark 1 hnext)).mark _ (hmark 0 (by omega))
    · rw [if_neg hlast]
      exact hs.place.mark _ (hmark _ hsec)
  · refine .update fun s hs => ?_
    have hsize := v.accepted.table16 hfat
    have h0 : s.tableOffset = 0 := hs.place.full (by rw [hfat]; nofun)
    refine hs.table (hs.place.mark _ ?_)
    rw [h0, Nat.zero_div, zero_add]
    exact sector_of_place (by omega)
  · refine Triple.bind (tableMoved_window hfat _) fun add => .update fun s hs => ?_
    obtain ⟨rfl, hoffset, hs⟩ := hs
    have hsize := table32_le v hfat
    have hplace : s.tableOffset / v.bytesPerSector + off * 4 % 0x20000 / v.bytesPerSector < v.tableSectors := by
      rw [hoffset, ← Nat.add_div_of_dvd_right ((sector_dvd_window v).mul_left _)]
      exact sector_of_place (by omega)
    have hmoved := hs.table (hs.place.mark (s.tableBuffer.setDword (off * 4 % 0x20000)
      (val % 0x10000000 + s.tableBuffer.dword (off * 4 % 0x20000) / 0x10000000 * 0x10000000)) hplace)
    unfold setEntry32 countFree
    split <;> exact hmoved

/-! ## The block buffer and the cluster buffer -/

/-- Both buffers hold what the device holds, wherever they are noted to be from. -/
structure Coherent (v : Volume) (st : Store) : Prop where
  block : st.blockBufferLba ≠ 0 → ∀ j, j < v.bytesPerSector →
    st.blockBuffer j = st.disk (st.blockBufferLba * v.blockSize + j)
  cluster : st.clusterBufferLba ≠ 0 → ∀ j, j < v.clusterSize →
    st.clusterBuffer j = st.disk (st.clusterBufferLba * v.blockSize + j)

def BlockPlace (v : Volume) (st : Store) : Prop :=
  st.blockBufferLba ≠ 0 → ∃ sector, v.OutsideTables sector ∧ st.blockBufferLba = sector * v.ioMul

/-- The place of the cluster buffer, and the one it would be written to. -/
def ClusterPlace (v : Volume) (st : Store) : Prop :=
  st.clusterBufferLba ≠ 0 → ∃ c, v.IsCluster c ∧ st.clusterSector = v.sectorOf c ∧
    st.clusterBufferLba = v.sectorOf c * v.ioMul

/-- Coherent buffers, at places outside of the tables. -/
structure Settled (v : Volume) (st : Store) : Prop where
  coherent : Coherent v st
  blockPlace : BlockPlace v st
  clusterPlace : ClusterPlace v st
  table : TablePlace v st

/-- The cluster buffer is being changed: it is about to be written to the cluster that
was read, or is to be filled. -/
structure Changing (v : Volume) (st : Store) : Prop where
  settled : Settled v { st with clusterBufferLba := 0 }
  place : ∃ c, v.IsCluster c ∧ st.clusterSector = v.sectorOf c
  same : st.clusterBufferLba = 0 ∨ st.clusterBufferLba = st.clusterSector * v.ioMul

structure BlockChanging (v : Volume) (sector : Nat) (st : Store) : Prop where
  settled : Settled v { st with blockBufferLba := 0 }
  place : v.OutsideTables sector
  same : st.blockBufferLba = sector * v.ioMul

variable {lba sector : Nat}

theorem Settled.moved {st' : Store} (h : Settled v st) (hm : TableMoved v st st') :
    Settled v st' := by
  obtain ⟨hplace, hdisk, hblock, hblockLba, hcluster, hclusterLba, hsector⟩ := hm
  refine ⟨⟨fun hne j hj => ?_, fun hne j hj => ?_⟩, fun hne => ?_, fun hne => ?_, hplace⟩
  · rw [hblockLba] at hne ⊢
    obtain ⟨sector, hout, hlba⟩ := h.blockPlace hne
    rw [hblock, h.coherent.block hne j hj, hlba, place_mul]
    exact (hdisk _ (outsideBytes_sector hout hj)).symm
  · rw [hclusterLba] at hne ⊢
    obtain ⟨c, -, -, hlba⟩ := h.clusterPlace hne
    rw [hcluster, h.coherent.cluster hne j hj, hlba, place_mul]
    exact (hdisk _ (outsideBytes_cluster c j)).symm
  · rw [hblockLba] at hne ⊢
    exact h.blockPlace hne
  · rw [hclusterLba] at hne ⊢
    rw [hsector]
    exact h.clusterPlace hne

theorem keeps_of_moved {α : Type} {m : FatProg α} {I : Store → Prop}
    (htable : ∀ st, I st → TablePlace v st) (hmoved : ∀ st st', I st → TableMoved v st st' → I st')
    (hm : ∀ st, Keeps (onStore (TableMoved v st)) m) : Keeps (onStore I) m := by
  intro s hs
  have hstart : TableMoved v s.toStore s.toStore := TableMoved.refl (htable _ hs)
  obtain ⟨hok, herr⟩ := hm s.toStore s hstart
  exact ⟨fun a ha => hmoved _ _ hs (hok a ha), fun e he => hmoved _ _ hs (herr e he)⟩

def SettledAt (v : Volume) (lba : Nat) (st : Store) : Prop := Settled v st ∧ st.blockBufferLba = lba

theorem SettledAt.moved {st' : Store} (h : SettledAt v lba st) (hm : TableMoved v st st') :
    SettledAt v lba st' :=
  ⟨h.1.moved hm, hm.blockBufferLba.trans h.2⟩

theorem settled_readBlock (hsector : v.OutsideTables sector) :
    Triple (onStore (Settled v)) (readBlock v (sector * v.ioMul))
      (fun _ s => SettledAt v (sector * v.ioMul) s.toStore) (onStore (Settled v)) := by
  refine .ite (fun _ => .fail fun s hs => hs) fun hne => ?_
  refine Triple.bind (Q := fun block s => s.blockBufferLba = block ∧ Settled v s.toStore)
    (.gets fun s hs => ⟨rfl, hs⟩) fun block => ?_
  refine Triple.bind (Q := fun cluster s => s.clusterBufferLba = cluster ∧ s.blockBufferLba = block ∧
    Settled v s.toStore) (.gets fun s hs => ⟨rfl, hs⟩) fun cluster => ?_
  refine .ite (fun hblock => .pure fun s hs => ⟨hs.2.2, hs.2.1.trans hblock⟩) fun _ => ?_
  refine .ite (fun hcluster => .update fun s hs => ?_) fun _ => ?_
  · -- the first sector of the cluster in the buffer
    obtain ⟨hlba, -, hs⟩ := hs
    rw [hcluster] at hlba
    refine ⟨⟨⟨fun _ j hj => ?_, hs.coherent.cluster⟩, fun _ => ⟨sector, hsector, rfl⟩,
      hs.clusterPlace, ⟨hs.table.full, hs.table.dirty⟩⟩, rfl⟩
    have hle : v.bytesPerSector ≤ v.clusterSize := Nat.le_mul_of_pos_right _ (clusterSectors_pos v)
    have hbuf := hs.coherent.cluster (by rw [hlba]; exact hne) j (by omega)
    rw [hlba] at hbuf
    show s.blockBuffer.copy 0 s.clusterBuffer 0 v.bytesPerSector j = _
    rwa [Bytes.copy_inside (by omega) (by omega), zero_add]
  · refine Triple.bind ((read_spec _).pre fun s hs => hs.2.2) fun r => ?_
    · refine Triple.bind (Q := fun _ s => (r.1 = true → SettledAt v (sector * v.ioMul) s.toStore) ∧
        Settled v s.toStore) (.update fun s hs => ?_) fun _ => ?_
      · obtain ⟨hread, hs⟩ := hs
        rcases hok : r.1
        · exact ⟨(fun h => by cases h), ⟨fun h => absurd rfl h, hs.coherent.cluster⟩,
            fun h => absurd rfl h, hs.clusterPlace, ⟨hs.table.full, hs.table.dirty⟩⟩
        have hnew : Settled v { s.toStore with
            blockBuffer := s.blockBuffer.copy 0 r.2 0 v.bytesPerSector
            blockBufferLba := sector * v.ioMul } := by
          refine ⟨⟨fun _ j hj => ?_, hs.coherent.cluster⟩, fun _ => ⟨sector, hsector, rfl⟩,
            hs.clusterPlace, ⟨hs.table.full, hs.table.dirty⟩⟩
          show s.blockBuffer.copy 0 r.2 0 v.bytesPerSector j = _
          rw [Bytes.copy_inside (by omega) (by omega), zero_add]
          exact hread hok j
        exact ⟨fun _ => ⟨hnew, rfl⟩, hnew⟩
      · exact .ite (fun hok => .pure fun s hs => hs.1 hok) fun _ => .fail fun s hs => hs.2

/-- After the write both buffers are settled: the cluster buffer is given up. -/
theorem settled_writeBlock (hwrite : v.WritesOk) :
    Triple (onStore (BlockChanging v sector)) (writeBlock v (sector * v.ioMul))
      (fun _ => onStore (Settled v)) (onStore (Settled v)) := by
  refine Triple.bind (Q := fun _ s => BlockChanging v sector s.toStore ∧ s.clusterBufferLba = 0)
    (.update fun s hs => ⟨⟨?_, hs.place, hs.same⟩, rfl⟩) fun _ => ?_
  · exact ⟨⟨hs.settled.coherent.block, fun h => absurd rfl h⟩, hs.settled.blockPlace,
      fun h => absurd rfl h, ⟨hs.settled.table.full, hs.settled.table.dirty⟩⟩
  refine Triple.bind (Q := fun buf s => s.blockBuffer = buf ∧ BlockChanging v sector s.toStore ∧
    s.clusterBufferLba = 0) (.gets fun s hs => ⟨rfl, hs⟩) fun buf => ?_
  refine Triple.bind (Q := fun ok s => ok = true ∧ Settled v s.toStore) (.act fun s hs => ?_) fun ok => ?_
  · obtain ⟨rfl, hs, hzero⟩ := hs
    have hok := hwrite s.tick sector hs.place
    refine ⟨hok, ⟨fun _ j hj => ?_, fun h => absurd hzero h⟩, fun _ => ⟨sector, hs.place, hs.same⟩,
      fun h => absurd hzero h, ⟨hs.settled.table.full, hs.settled.table.dirty⟩⟩
    simp only [hok, if_true, hs.same]
    rw [Bytes.copy_inside (by omega) (by omega)]
    congr 1
    omega
  · exact .ite (fun _ => .pure fun s hs => hs.2) fun h => .fail fun s hs => hs.2

theorem SettledAt.changing (hsector : v.OutsideTables sector)
    (h : SettledAt v (sector * v.ioMul) st) (b : Bytes) :
    BlockChanging v sector { st with blockBuffer := b } :=
  ⟨⟨⟨fun hne => absurd rfl hne, h.1.coherent.cluster⟩, fun hne => absurd rfl hne, h.1.clusterPlace,
    ⟨h.1.table.full, h.1.table.dirty⟩⟩, hsector, h.2⟩

theorem settled_record (hwrite : v.WritesOk) (fd : Nat) :
    Keeps (onStore (Settled v)) (writeRecordBuffer v fd) := by
  refine .bind .gets fun entry => .ite .fail ?_
  refine Triple.ite (fun _ => .fail fun s hs => hs) fun hsector => ?_
  have hout : v.OutsideTables entry.recordSector := by
    have := lastTableSector_succ v
    exact .inr (by omega)
  refine Triple.bind (settled_readBlock hout) fun _ => ?_
  refine Triple.bind
    (.update fun s hs => hs.changing hout _) fun _ => settled_writeBlock hwrite

/-- Only the cluster to be written has been noted. -/
def SectorNoted (v : Volume) (c : Nat) (st : Store) : Prop :=
  v.IsCluster c ∧ st.clusterSector = v.sectorOf c ∧ ∃ sector, Settled v { st with clusterSector := sector }

theorem SectorNoted.fill {c : Nat} (h : SectorNoted v c st) {b : Bytes}
    (hlba : lba ≠ 0 → lba = v.sectorOf c * v.ioMul ∧ ∀ j, j < v.clusterSize → b j = st.disk (lba * v.blockSize + j)) :
    Settled v { st with clusterBuffer := b, clusterBufferLba := lba } := by
  obtain ⟨hc, hsector, sector, hs⟩ := h
  exact ⟨⟨hs.coherent.block, fun hne => (hlba hne).2⟩, hs.blockPlace,
    fun hne => ⟨c, hc, hsector, (hlba hne).1⟩, ⟨hs.table.full, hs.table.dirty⟩⟩

theorem Settled.changing {c : Nat} (h : Settled v st) (hc : v.IsCluster c)
    (hsector : st.clusterSector = v.sectorOf c)
    (hlba : st.clusterBufferLba = 0 ∨ st.clusterBufferLba = v.sectorOf c * v.ioMul) :
    Changing v st :=
  ⟨⟨⟨h.coherent.block, fun hne => absurd rfl hne⟩, h.blockPlace, fun hne => absurd rfl hne,
    ⟨h.table.full, h.table.dirty⟩⟩, ⟨c, hc, hsector⟩, hsector ▸ hlba⟩

theorem settled_readCluster (c : Nat) (skipIo : Bool) :
    Triple (onStore (Settled v)) (readCluster v c skipIo)
      (fun _ s => 2 ≤ c ∧ Settled v s.toStore ∧ Changing v s.toStore) (onStore (Settled v)) := by
  refine .ite (fun _ => .fail fun s hs => hs) fun hc => ?_
  have hc' : v.IsCluster c := ⟨by omega, by omega⟩
  refine Triple.bind (Q := fun _ => onStore (SectorNoted v c))
    (.update fun s hs => ⟨hc', rfl, s.clusterSector, hs⟩) fun _ => ?_
  -- a buffer that is filled from the cluster, or not at all
  have hdone : ∀ {st : Store} {b : Bytes} {lba : Nat}, SectorNoted v c st →
      (lba = 0 ∨ lba = v.sectorOf c * v.ioMul) → (lba ≠ 0 → ∀ j, j < v.clusterSize →
        b j = st.disk (lba * v.blockSize + j)) →
      2 ≤ c ∧ Settled v { st with clusterBuffer := b, clusterBufferLba := lba } ∧
        Changing v { st with clusterBuffer := b, clusterBufferLba := lba } := by
    intro st b lba hst hlba hb
    have hset := hst.fill fun hne => ⟨hlba.resolve_left hne, hb hne⟩
    exact ⟨hc'.1, hset, hset.changing hc' hst.2.1 hlba⟩
  refine .ite (fun _ => .update fun s hs => ?_) fun _ => ?_
  · exact hdone hs (.inl rfl) fun hne => absurd rfl hne
  refine Triple.bind (Q := fun lba s => s.clusterBufferLba = lba ∧ SectorNoted v c s.toStore)
    (.gets fun s hs => ⟨rfl, hs⟩) fun lba => .ite (fun hlba => .pure fun s hs => ?_) fun _ => ?_
  · obtain ⟨rfl, hs⟩ := hs
    obtain ⟨_, hset⟩ := hs.2.2
    exact hdone hs (.inr hlba) hset.coherent.cluster
  refine Triple.bind ((read_spec _).pre fun s hs => hs.2) fun r => ?_
  refine Triple.bind (Q := fun _ s => 2 ≤ c ∧ Settled v s.toStore ∧ Changing v s.toStore)
    (.update fun s hs => ?_) fun _ => ?_
  · obtain ⟨hread, hs⟩ := hs
    rcases hok : r.1
    · exact hdone hs (.inl rfl) fun hne => absurd rfl hne
    · refine hdone hs (.inr rfl) fun _ j hj => ?_
      rw [if_pos rfl, Bytes.copy_inside (by omega) (by omega), zero_add]
      exact hread hok j
  · exact .ite (fun _ => .pure fun s hs => hs) fun _ => .fail fun s hs => hs.2.1

/-- After the write both buffers are settled: the block buffer is given up. -/
theorem settled_writeCluster (hwrite : v.WritesOk) :
    Triple (onStore (Changing v)) (writeCluster v) (fun _ => onStore (Settled v))
      (onStore (Settled v)) := by
  refine Triple.bind (Q := fun sector s => s.clusterSector = sector ∧ Changing v s.toStore)
    (.gets fun s hs => ⟨rfl, hs⟩) fun sector => ?_
  refine .ite (fun hle => .fail fun s hs => ?_) fun _ => ?_
  · -- a cluster does not lie before the tables
    obtain ⟨rfl, hs⟩ := hs
    obtain ⟨c, -, hsector⟩ := hs.place
    have := rootSector_le_sectorOf v c
    have := lastTableSector_succ v
    omega
  refine Triple.bind (Q := fun _ s => s.clusterSector = sector ∧ s.blockBufferLba = 0 ∧
    Changing v s.toStore) (.update fun s hs => ⟨hs.1, rfl, ?_, hs.2.place, hs.2.same⟩) fun _ => ?_
  · exact ⟨⟨fun h => absurd rfl h, fun h => absurd rfl h⟩, fun h => absurd rfl h,
      fun h => absurd rfl h, ⟨hs.2.settled.table.full, hs.2.settled.table.dirty⟩⟩
  refine Triple.bind (Q := fun buf s => s.clusterBuffer = buf ∧ s.clusterSector = sector ∧
    s.blockBufferLba = 0 ∧ Changing v s.toStore) (.gets fun s hs => ⟨rfl, hs⟩) fun buf => ?_
  refine Triple.bind (.act fun s hs => ?_) fun ok =>
    .ite (fun _ => .pure fun s hs => hs) fun _ => .fail fun s hs => hs
  obtain ⟨rfl, rfl, hzero, hs⟩ := hs
  refine ⟨⟨fun h => absurd hzero h, fun hne j hj => ?_⟩, fun h => absurd hzero h, fun hne => ?_,
    ⟨hs.settled.table.full, hs.settled.table.dirty⟩⟩
  · have hok := hwrite s.tick s.clusterSector (by
      obtain ⟨c, -, hsector⟩ := hs.place
      exact .inr (hsector ▸ rootSector_le_sectorOf v c))
    simp only [hok, if_true, hs.same.resolve_left hne]
    rw [Bytes.copy_inside (by omega) (by omega)]
    congr 1
    omega
  · obtain ⟨c, hc, hsector⟩ := hs.place
    exact ⟨c, hc, hsector, hsector ▸ hs.same.resolve_left hne⟩

theorem settledAt_usedBefore (fuel : Nat) :
    ∀ next, Keeps (onStore (SettledAt v lba)) (usedBefore v fuel next) := by
  have hget : ∀ off, Keeps (onStore (SettledAt v lba)) (getTableValue v off) := fun off =>
    keeps_of_moved (fun _ h => h.1.table) (fun _ _ h hm => h.moved hm) fun st => tableMoved_get off
  induction fuel with
  | zero => exact fun _ => .pure
  | succ fuel ih =>
    intro next
    exact .ite (.bind (hget next) fun val => .ite .pure (ih _)) .pure

theorem settled_info (hwrite : v.WritesOk) (hfat : v.type = .fat32) :
    Keeps (onStore (Settled v)) (writeFsInfo v) := by
  have hout : v.OutsideTables v.infoSector := by
    obtain ⟨-, -, -, -, -, -, hlt⟩ := v.accepted.table32 hfat
    exact .inl hlt
  refine .bind .gets fun free => .bind .gets fun next => .bind (Kept.other fun _ => rfl) fun _ => ?_
  refine Triple.bind (settled_readBlock hout).attempted fun r => ?_
  cases r with
  | error e => exact .pure fun s hs => hs
  | ok _ =>
    have hlast : Triple (onStore (SettledAt v (v.infoSector * v.ioMul))) (do
        let next ← usedBefore v next next
        Prog.update fun s =>
          { s with blockBuffer := (s.blockBuffer.setDword 488 free).setDword 492 next }
        let _ ← result (writeBlock v (v.infoSector * v.ioMul))
        pure ⟨⟩ : FatProg PUnit) (fun _ => onStore (Settled v)) (onStore (Settled v)) := by
      refine Triple.bind ((settledAt_usedBefore next next).onError fun s hs => hs.1) fun next => ?_
      refine Triple.bind (Q := fun _ => onStore (BlockChanging v v.infoSector))
        (.update fun s hs => hs.changing hout _) fun _ => ?_
      refine Triple.bind (settled_writeBlock hwrite).attempted fun r => .pure fun s hs => ?_
      cases r <;> exact hs
    refine Triple.bind (Q := fun _ => onStore (SettledAt v (v.infoSector * v.ioMul)))
      (.gets fun s hs => hs) fun buf => .ite (fun _ => .pure fun s hs => hs.1) fun _ => ?_
    refine .ite (fun _ => ?_) fun _ => hlast
    exact Triple.bind
      (.update fun s hs => hs) fun _ => hlast

theorem settled_kept (hwrite : v.WritesOk) :
    Kept v (fun _ => True) (Settled v) (Changing v) where
  entries _ _ := trivial
  block _ h := (settled_readBlock h).weaken (fun _ => id) fun _ _ hs => hs.1
  record := settled_record hwrite
  info := settled_info hwrite
  cluster := settled_readCluster
  change _ _ h := ⟨⟨⟨h.settled.coherent.block, fun hne => absurd rfl hne⟩, h.settled.blockPlace,
    fun hne => absurd rfl hne, ⟨h.settled.table.full, h.settled.table.dirty⟩⟩, h.place, h.same⟩
  store := settled_writeCluster hwrite
  get off := keeps_of_moved (fun _ h => h.table) (fun _ _ h hm => h.moved hm) fun _ =>
    tableMoved_get off
  set off val _ := keeps_of_moved (fun _ h => h.table) (fun _ _ h hm => h.moved hm) fun _ =>
    tableMoved_set off val
  table := keeps_of_moved (fun _ h => h.table) (fun _ _ h hm => h.moved hm) fun _ =>
    tableMoved_writeTable.weaken (fun _ => id) fun _ _ hs => hs.1
  window off hfat _ := keeps_of_moved (fun _ h => h.table) (fun _ _ h hm => h.moved hm) fun _ =>
    (tableMoved_window hfat off).weaken (fun _ => id) fun _ _ hs => hs.2.2
  forget _ _ h := ⟨⟨fun hne => absurd rfl hne, h.coherent.cluster⟩, fun hne => absurd rfl hne,
    h.clusterPlace, ⟨h.table.full, h.table.dirty⟩⟩

theorem fatCreate_spec {device : Device} {disk : Bytes} {s : FatInstance}
    (h : fatCreate device disk = some (v, s)) :
    v.device = device ∧ ∃ buf, readTable v (blankInstance disk 8 buf 0) = (.ok ⟨⟩, s) := by
  unfold fatCreate at h
  split at h
  · cases h
  next blockSize blockTotal _ =>
    simp only at h
    split at h
    · split at h
      · cases h
      next w hboot =>
        have hdevice : w.device = device := by
          unfold readBiosParameterBlock at hboot
          simp only at hboot
          split at hboot
          · split at hboot
            · cases hboot
              rfl
            · cases hboot
          · cases hboot
        rcases hread : readTable w (blankInstance disk 8
          (Bytes.copy (fun _ => 0) 0 disk 0 (bootSize blockSize)) 0) with ⟨e | a, s'⟩
        · rw [hread] at h
          cases h
        · rw [hread] at h
          cases h
          exact ⟨hdevice, _, hread⟩
    · cases h

theorem blank_settled (v : Volume) (disk : Bytes) (tick : Nat) (buf : Bytes) :
    Settled v (blankInstance disk tick buf 0).toStore :=
  ⟨⟨fun h => absurd rfl h, fun h => absurd rfl h⟩, fun h => absurd rfl h, fun h => absurd rfl h,
    ⟨fun _ => rfl, fun _ _ h => nomatch h⟩⟩

theorem create_settled {device : Device} {disk : Bytes} {s : FatInstance}
    (h : fatCreate device disk = some (v, s)) : Settled v s.toStore := by
  obtain ⟨-, buf, hread⟩ := fatCreate_spec h
  have hblank := blank_settled v disk 8 buf
  have hstart := TableMoved.refl hblank.table
  have hmoved : TableMoved v (blankInstance disk 8 buf 0).toStore s.toStore := by
    unfold readTable at hread
    split at hread
    · next hfat =>
        have := (tableMoved_load hfat 0 _ ⟨hstart, rfl⟩).1 ⟨⟩ (by rw [hread])
        rw [hread] at this
        exact this.1
    · have := (tableMoved_fetch _ _ 0 _ ⟨hstart, rfl⟩).1 ⟨⟩ (by rw [hread])
      rw [hread] at this
      exact this.1
  exact hblank.moved hmoved

/-- On a device on which no write outside of the tables fails, both buffers hold what the
device holds, after any calls whatever. Reads may fail. -/
theorem buffers_coherent {device : Device} {disk : Bytes} {s s' : FatInstance}
    {calls : List FatCall} (hcreate : fatCreate device disk = some (v, s)) (hwrite : v.WritesOk)
    (hrun : Run (FatStep v) s calls s') : Coherent v s'.toStore := by
  have hsettled : Settled v s'.toStore := by
    refine hrun.invariant (I := onStore (Settled v)) (fun s call s' hs hstep => ?_)
      (create_settled hcreate)
    rw [hstep.2]
    exact Keeps.state ((settled_kept hwrite).call (fun _ => trivial) call) hs
  exact hsettled.coherent

theorem open_small (writes : Bool) {e : Volume → Except FatEnd PUnit × FatInstance → Bool}
    (heval : (fatCreate (smallDevice 20 writes) (smallDisk 20 [0xF8, 0xFF, 0xFF] [] [])).any (fun p =>
      e p.1 (fatOpen p.1 0 (some [0x41]) (some [0x77]) p.2)) = true) :
    ∃ v s, fatCreate (smallDevice 20 writes) (smallDisk 20 [0xF8, 0xFF, 0xFF] [] []) = some (v, s) ∧
      e v (FatCall.run v (.openFile 0 (some [0x41]) (some [0x77])) s) = true := by
  obtain ⟨⟨v, s⟩, hcreate, hends⟩ := (Option.any_eq_true ..).mp heval
  exact ⟨v, s, hcreate, hends⟩

/-- A file is created on an empty volume. -/
theorem buffers_coherent_small :
    ∃ v s s', fatCreate (smallDevice 20 true) (smallDisk 20 [0xF8, 0xFF, 0xFF] [] []) = some (v, s) ∧
      Run (FatStep v) s [.openFile 0 (some [0x41]) (some [0x77])] s' ∧ Coherent v s'.toStore := by
  obtain ⟨v, s, hcreate, hends⟩ := open_small true (e := fun _ r => decide (r.1 = .ok ⟨⟩)) (by decide +kernel)
  have hdevice := (fatCreate_spec hcreate).1
  have hrun : Run (FatStep v) s _ _ := .single ⟨by rw [of_decide_eq_true hends]; nofun, rfl⟩
  exact ⟨v, s, _, hcreate, hrun, buffers_coherent hcreate (fun _ _ _ => by rw [hdevice]; rfl) hrun⟩

/-- The first record of an empty volume cannot be written: the sector of the root
directory stays in the block buffer, with the record. -/
theorem buffers_incoherent :
    ∃ v s s', fatCreate (smallDevice 20 false) (smallDisk 20 [0xF8, 0xFF, 0xFF] [] []) = some (v, s) ∧
      Run (FatStep v) s [.openFile 0 (some [0x41]) (some [0x77])] s' ∧ ¬Coherent v s'.toStore := by
  obtain ⟨v, s, hcreate, hends⟩ := open_small false (by decide +kernel)
    (e := fun v r => r.1 = .error (.error .blockWriteError) && r.2.blockBufferLba ≠ 0 &&
      r.2.blockBuffer 0 ≠ r.2.disk (r.2.blockBufferLba * v.blockSize + 0))
  simp only [Bool.and_eq_true, decide_eq_true_eq] at hends
  obtain ⟨⟨hend, hlba⟩, hbyte⟩ := hends
  refine ⟨v, s, _, hcreate, Run.single ⟨by rw [hend]; nofun, rfl⟩, fun hcoherent => ?_⟩
  exact hbyte (hcoherent.block hlba 0 (bytesPerSector_pos v))

end Dancy.Fat
