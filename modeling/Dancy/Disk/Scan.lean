import Dancy.Disk.Partitions

/-!
# The scan of a disk (`misc/hdd_part.c`)

The body of the loop over the extended boot records is a step: it ends the
loop or leads to the next record. From this follow the disks on which the
loop ends, and what the scan has read when it mounts a partition.
-/

namespace Dancy.Disk

open List Function Option

open Dancy.Lib (walk)

/-- The end of the body: on to the record `ebr`, or out of the loop. -/
def recordEnd (base : Nat) (ebr : HddLegacyEntry) (ebrCount : Nat) (ps : Partitions) :
    Except (Code × Partitions) (Nat × Nat × Partitions) :=
  if isExtended ebr.type = false then .error (.ok, ps)
  else if 0xFFFFFFFF < base + ebr.lba then .error (.unsupported, ps)
  else .ok (base + ebr.lba, ebrCount, ps)

/-- The first two entries of an extended boot record. -/
def recordEntries (buffer : Buffer) : Option (HddLegacyEntry × HddLegacyEntry) :=
  match readLegacyTable buffer true with
  | some (e :: ebr :: _) => some (e, ebr)
  | _ => none

/-- The body of the loop with the entries of the record at `lba`. -/
def recordBody (dev : Device) (base lba ebrCount : Nat) (ps : Partitions)
    (e ebr : HddLegacyEntry) : Except (Code × Partitions) (Nat × Nat × Partitions) :=
  if e.type = 0 then recordEnd base ebr ebrCount ps
  else
    match logical dev lba ebrCount e ps with
    | none => .error (.unsupported, ps)
    | some ps =>
      if hddPartitionCount ≤ ebrCount + 1 + 4 then .error (.ok, ps)
      else recordEnd base ebr (ebrCount + 1) ps

/-- The body of the loop over the extended boot records, with the `k`-th
read: `error` ends the loop. -/
def recordStep (dev : Device) (base k lba ebrCount : Nat) (ps : Partitions) :
    Except (Code × Partitions) (Nat × Nat × Partitions) :=
  match readSector dev k lba with
  | (.ok, buffer) =>
    match recordEntries buffer with
    | some (e, ebr) => recordBody dev base lba ebrCount ps e ebr
    | none => .error (.unsupported, ps)
  | (r, _) => .error (r, ps)

theorem extended_succ (dev : Device) (base fuel lba ebrCount k : Nat) (ps : Partitions) :
    extended dev base (fuel + 1) lba ebrCount k ps =
      match recordStep dev base k lba ebrCount ps with
      | .error r => some r
      | .ok (lba, ebrCount, ps) => extended dev base fuel lba ebrCount (k + 1) ps := by
  have hend : ∀ ebr ebrCount ps, extended.extendedNext dev base fuel ebr ebrCount (k + 1) ps =
        match recordEnd base ebr ebrCount ps with
        | .error r => some r
        | .ok (lba, ebrCount, ps) => extended dev base fuel lba ebrCount (k + 1) ps := by
    intro ebr ebrCount ps
    unfold extended.extendedNext recordEnd
    split
    · rfl
    split
    · rfl
    · rfl
  rw [extended, recordStep]
  rcases readSector dev k lba with ⟨r, buffer⟩
  cases r with
  | ok =>
    simp only [recordEntries]
    rcases readLegacyTable buffer true with _ | _ | ⟨e, _ | ⟨ebr, es⟩⟩
    · rfl
    · rfl
    · rfl
    simp only [recordBody]
    by_cases htype : e.type = 0
    · rw [if_pos htype, if_pos htype, hend]
    rw [if_neg htype, if_neg htype]
    cases logical dev lba ebrCount e ps with
    | none => rfl
    | some ps1 =>
      dsimp only
      by_cases hcount : hddPartitionCount ≤ ebrCount + 1 + 4
      · rw [if_pos hcount, if_pos hcount]
      · simp [if_neg hcount, hend]
  | unsupported | blockRead | busy | node r => rfl

/-! ## The chain on the disk -/

/-- The two entries of the record at `lba`, as the `k`-th read finds it. -/
def recordAt (dev : Device) (k lba : Nat) : Option (HddLegacyEntry × HddLegacyEntry) :=
  match readSector dev k lba with
  | (.ok, buffer) => recordEntries buffer
  | _ => none

/-- The partition of a record is inside of the device. -/
def partitionFits (dev : Device) (lba : Nat) (e : HddLegacyEntry) : Bool :=
  w64 (w64 ((lba + e.lba) * 512) + e.sectors * 512) ≤ dev.size

/-- Whether the first entry of the record at `lba` is in use. -/
def firstUsed (dev : Device) (lba : Nat) : Bool :=
  match recordAt dev 0 lba with
  | some (e, _) => e.type ≠ 0
  | none => false

/-- The record that the record at `lba` points to. -/
def chainNext (dev : Device) (base lba : Nat) : Option Nat :=
  match recordAt dev 0 lba with
  | none => none
  | some (e, ebr) =>
    if e.type ≠ 0 ∧ partitionFits dev lba e = false then none
    else if isExtended ebr.type = false ∨ 0xFFFFFFFF < base + ebr.lba then none
    else some (base + ebr.lba)

/-- How many of the first `n` records of the chain have a used first entry. -/
def passed (dev : Device) (base : Nat) : Nat → Nat
  | 0 => 0
  | n + 1 =>
    passed dev base n + match walk (chainNext dev base) n base with
      | some lba => if firstUsed dev lba then 1 else 0
      | none => 0

/-- With fewer than 28 partitions, the chain comes back to a record through
records whose first entry is unused. -/
def UnusedCycle (dev : Device) (base : Nat) : Prop :=
  ∃ i j lba, i < j ∧ walk (chainNext dev base) i base = some lba ∧
    walk (chainNext dev base) j base = some lba ∧
    passed dev base j = passed dev base i ∧ passed dev base i < 28

/-- The first extended boot record of a disk with the sector 0 in the
buffer. -/
def firstRecord (dev : Device) (buffer : Buffer) (ps : Partitions) : Option Nat :=
  match readLegacyTable buffer false with
  | none => none
  | some table =>
    match primary dev ((range 4).zip table) ps none with
    | some (_, some ebr) => some ebr.lba
    | _ => none

def contentDevice (size blockSize : Nat) (content : (offset : Nat) → ReadReply) : Device where
  size := size
  blockSize := blockSize
  read _ offset := content offset

/-- The walk of the loop: the record and the number of partitions. -/
def recordNext (dev : Device) (base : Nat) (s : Nat × Nat) : Option (Nat × Nat) :=
  (chainNext dev base s.1).bind fun lba =>
    if firstUsed dev s.1 then
      if hddPartitionCount ≤ s.2 + 1 + 4 then none else some (lba, s.2 + 1)
    else some (lba, s.2)

theorem recordEnd_next (base : Nat) (ebr : HddLegacyEntry) (ebrCount : Nat) (ps : Partitions) :
    (recordEnd base ebr ebrCount ps).toOption.map (fun r => (r.1, r.2.1)) =
      if isExtended ebr.type = false ∨ 0xFFFFFFFF < base + ebr.lba then none
      else some (base + ebr.lba, ebrCount) := by
  unfold recordEnd
  by_cases hext : isExtended ebr.type = false
  · rw [if_pos hext, if_pos (.inl hext)]
    rfl
  rw [if_neg hext]
  by_cases hbig : 0xFFFFFFFF < base + ebr.lba
  · rw [if_pos hbig, if_pos (.inr hbig)]
    rfl
  · rw [if_neg hbig, if_neg (not_or.mpr ⟨hext, hbig⟩)]
    rfl

theorem recordBody_next (dev : Device) (base lba ebrCount : Nat) (ps : Partitions)
    (e ebr : HddLegacyEntry) :
    (recordBody dev base lba ebrCount ps e ebr).toOption.map (fun r => (r.1, r.2.1)) =
      if e.type ≠ 0 ∧ partitionFits dev lba e = false then none
      else if isExtended ebr.type = false ∨ 0xFFFFFFFF < base + ebr.lba then none
      else if e.type = 0 then some (base + ebr.lba, ebrCount)
      else if hddPartitionCount ≤ ebrCount + 1 + 4 then none
      else some (base + ebr.lba, ebrCount + 1) := by
  rw [recordBody]
  by_cases htype : e.type = 0
  · rw [if_pos htype, recordEnd_next]
    simp [htype]
  by_cases hfit : partitionFits dev lba e = false
  · have hlogical : logical dev lba ebrCount e ps = none :=
      if_pos (by simpa [partitionFits] using hfit)
    rw [hlogical]
    simp [htype, hfit]
    rfl
  have hlogical : logical dev lba ebrCount e ps =
      if hddPartitionCount ≤ ebrCount + 1 + 4 then some ps
      else some (update ps (ebrCount + 1 + 4)
        ⟨w64 ((lba + e.lba) * 512), e.sectors * 512, e.type⟩) :=
    if_neg (by simpa [partitionFits] using hfit)
  rw [hlogical]
  by_cases hcount : hddPartitionCount ≤ ebrCount + 1 + 4
  · simp [htype, hcount]
    rfl
  · simp [htype, hfit, hcount, recordEnd_next]

/-- On a disk with a fixed content the body of the loop follows the chain. -/
theorem recordStep_next (size blockSize : Nat) (content : Nat → ReadReply)
    (base k lba ebrCount : Nat) (ps : Partitions) :
    (recordStep (contentDevice size blockSize content) base k lba ebrCount ps).toOption.map
        (fun r => (r.1, r.2.1)) =
      recordNext (contentDevice size blockSize content) base (lba, ebrCount) := by
  have hread : readSector (contentDevice size blockSize content) k lba =
      readSector (contentDevice size blockSize content) 0 lba := rfl
  rw [recordStep, hread, recordNext, chainNext, firstUsed, recordAt]
  rcases readSector (contentDevice size blockSize content) 0 lba with ⟨r, buffer⟩
  cases r with
  | ok =>
    rcases hrec : recordEntries buffer with _ | ⟨e, ebr⟩
    · simp only [hrec]
      rfl
    simp only [hrec, recordBody_next]
    by_cases hfit : e.type ≠ 0 ∧
        partitionFits (contentDevice size blockSize content) lba e = false
    · rw [if_pos hfit, if_pos hfit]
      rfl
    rw [if_neg hfit, if_neg hfit]
    by_cases hend : isExtended ebr.type = false ∨ 0xFFFFFFFF < base + ebr.lba
    · rw [if_pos hend, if_pos hend]
      rfl
    · rw [if_neg hend, if_neg hend, bind_some]
      by_cases htype : e.type = 0
      · simp [htype]
      · simp [htype]
  | unsupported | blockRead | busy | node r => rfl

/-- On a disk with a fixed content the loop goes on as long as the walk. -/
theorem extended_eq_none_iff (size blockSize : Nat) (content : Nat → ReadReply) (base fuel : Nat) :
    ∀ (lba ebrCount k : Nat) (ps : Partitions),
      extended (contentDevice size blockSize content) base fuel lba ebrCount k ps = none ↔
        walk (recordNext (contentDevice size blockSize content) base) fuel (lba, ebrCount) ≠
          none := by
  induction fuel with
  | zero => simp [extended]
  | succ fuel ih =>
    intro lba ebrCount k ps
    have hnext := recordStep_next size blockSize content base k lba ebrCount ps
    rw [extended_succ, Lib.walk_succ, ← hnext]
    rcases recordStep (contentDevice size blockSize content) base k lba ebrCount ps with
      r | ⟨lba', ebrCount', ps'⟩
    · simp [Except.toOption]
    · exact ih lba' ebrCount' (k + 1) ps'

/-- The walk of the loop is the chain with the number of used records, as
long as there are fewer than 28 of them. -/
theorem walk_recordNext (dev : Device) (base : Nat) (n : Nat) (s : Nat × Nat) :
    walk (recordNext dev base) n (base, 0) = some s ↔
      walk (chainNext dev base) n base = some s.1 ∧ passed dev base n = s.2 ∧ s.2 < 28 := by
  induction n generalizing s with
  | zero =>
    rcases s with ⟨lba, ebrCount⟩
    simp only [Lib.walk_zero, some.injEq, Prod.mk.injEq, passed]
    omega
  | succ n ih =>
    rcases s with ⟨lba', ebrCount'⟩
    rw [Lib.walk_succ_last, Lib.walk_succ_last, bind_eq_some_iff, bind_eq_some_iff]
    constructor
    · rintro ⟨⟨lba, ebrCount⟩, hs, hnext⟩
      obtain ⟨hchain, hpassed, hlt⟩ := (ih (lba, ebrCount)).mp hs
      obtain ⟨next, hbase, hcount⟩ := bind_eq_some_iff.mp hnext
      simp only [passed, hchain]
      by_cases hused : firstUsed dev lba = true
      · rw [if_pos hused] at hcount
        rw [if_pos hused]
        by_cases hfull : hddPartitionCount ≤ ebrCount + 1 + 4
        · rw [if_pos hfull] at hcount
          cases hcount
        · rw [if_neg hfull] at hcount
          obtain ⟨rfl, rfl⟩ := Prod.mk.inj (some.inj hcount)
          simp only [hddPartitionCount] at hfull
          exact ⟨⟨lba, rfl, hbase⟩, by omega, by omega⟩
      · rw [if_neg hused] at hcount
        rw [if_neg hused]
        obtain ⟨rfl, rfl⟩ := Prod.mk.inj (some.inj hcount)
        exact ⟨⟨lba, rfl, hbase⟩, by omega, hlt⟩
    · rintro ⟨⟨lba, hchain, hbase⟩, hpassed, hlt⟩
      simp only [passed, hchain] at hpassed
      by_cases hused : firstUsed dev lba = true
      · rw [if_pos hused] at hpassed
        refine ⟨(lba, passed dev base n), (ih _).mpr ⟨hchain, rfl, by omega⟩, ?_⟩
        have hfull : ¬ hddPartitionCount ≤ passed dev base n + 1 + 4 := by
          simp only [hddPartitionCount]
          omega
        simp only [recordNext, hbase, bind_some, hused, if_true]
        rw [if_neg hfull, hpassed]
      · rw [if_neg hused] at hpassed
        refine ⟨(lba, passed dev base n), (ih _).mpr ⟨hchain, rfl, by omega⟩, ?_⟩
        simp only [recordNext, hbase, bind_some]
        rw [if_neg hused, ← hpassed, add_zero]

variable {dev : Device} {base lba : Nat}

theorem chainNext_lt {lba' : Nat} (h : chainNext dev base lba = some lba') :
    lba' < 2 ^ 32 := by
  rw [chainNext] at h
  iterate 3
    split at h
    · cases h
  · next hend =>
      obtain rfl := some.inj h
      omega

/-- The chain is read forever exactly when it has a cycle of unused records. -/
theorem walk_ends (dev : Device) (hbase : base < 2 ^ 32) :
    (∃ n, walk (recordNext dev base) n (base, 0) = none) ↔ ¬ UnusedCycle dev base := by
  have hfinite : (({lba | lba < 2 ^ 32} : Set Nat) ×ˢ ({c | c < 28} : Set Nat)).Finite :=
    (Set.finite_lt_nat _).prod (Set.finite_lt_nat _)
  have hmem : ∀ n t, walk (recordNext dev base) n (base, 0) = some t →
      t ∈ ({lba | lba < 2 ^ 32} : Set Nat) ×ˢ ({c | c < 28} : Set Nat) := by
    intro n t h
    obtain ⟨hchain, -, hlt⟩ := (walk_recordNext dev base n t).mp h
    refine ⟨?_, hlt⟩
    cases n with
    | zero =>
      exact some.inj hchain ▸ hbase
    | succ n =>
      rw [Lib.walk_succ_last] at hchain
      obtain ⟨lba, -, hnext⟩ := bind_eq_some_iff.mp hchain
      exact chainNext_lt hnext
  rw [Lib.walk_ends_iff hfinite hmem]
  refine not_congr ⟨?_, ?_⟩
  · rintro ⟨i, j, t, hij, hi, hj⟩
    obtain ⟨hci, hpi, hlt⟩ := (walk_recordNext dev base i t).mp hi
    obtain ⟨hcj, hpj, -⟩ := (walk_recordNext dev base j t).mp hj
    exact ⟨i, j, t.1, hij, hci, hcj, by omega, by omega⟩
  · rintro ⟨i, j, lba, hij, hci, hcj, hp, hlt⟩
    exact ⟨i, j, (lba, passed dev base i), hij,
      (walk_recordNext dev base i _).mpr ⟨hci, rfl, hlt⟩,
      (walk_recordNext dev base j _).mpr ⟨hcj, hp, hlt⟩⟩

/-- A disk all of whose sectors hold one record: the first entry is unused,
the second one is an extended partition at the sector 1. -/
def loopBuffer : Buffer := fun i =>
  if i = 463 ∨ i = 464 ∨ i = 467 ∨ i = 468 ∨ i = 470 ∨ i = 474 then 1
  else if i = 466 then 0x05
  else if i = 510 then 0x55 else if i = 511 then 0xAA else 0

/-- The loop over the extended boot records ends exactly when the disk has no
cycle of unused records. -/
theorem handleLegacy_ends (size blockSize : Nat) (content : Nat → ReadReply) (buffer : Buffer)
    (ps : Partitions) :
    (∃ fuel r, handleLegacy (contentDevice size blockSize content) fuel buffer ps = some r) ↔
      ∀ base, firstRecord (contentDevice size blockSize content) buffer ps = some base →
        ¬ UnusedCycle (contentDevice size blockSize content) base := by
  have hvacuous : ∀ {P : Nat → Prop} {r : Code × Partitions} {f : Nat → Option (Code × Partitions)},
      (∀ fuel, f fuel = some r) →
        ((∃ fuel r, f fuel = some r) ↔ ∀ base, (none : Option Nat) = some base → P base) :=
    fun h => ⟨fun _ _ hb => (nomatch hb), fun _ => ⟨0, _, h 0⟩⟩
  unfold handleLegacy firstRecord
  cases htable : readLegacyTable buffer false with
  | none => exact hvacuous fun _ => rfl
  | some table =>
    dsimp only
    have hes : ∀ x ∈ (range 4).zip table, EntryOk x.2 := fun x hx =>
      entryOk_of_table htable x.2 (of_mem_zip hx).2
    rcases hprimary : primary (contentDevice size blockSize content)
      ((range 4).zip table) ps none with _ | ⟨ps', _ | ebr⟩
    · exact hvacuous fun _ => rfl
    · exact hvacuous fun _ => rfl
    have hlba : ebr.lba < 2 ^ 32 := 
      ((primary_spec hes hprimary).2 (fun _ h => by cases h) _ rfl).lba_lt
    have hends := walk_ends (contentDevice size blockSize content) hlba
    have hnone := fun fuel =>
      extended_eq_none_iff size blockSize content ebr.lba fuel ebr.lba 0 2 ps'
    constructor
    · rintro ⟨fuel, r, hr⟩ base hbase
      obtain rfl := some.inj hbase
      refine hends.mp ⟨fuel, ?_⟩
      by_contra hwalk
      have := (hnone fuel).mpr hwalk
      dsimp only at hr
      rw [this] at hr
      cases hr
    · intro h
      obtain ⟨n, hn⟩ := hends.mpr (h ebr.lba rfl)
      exact ⟨n, ne_none_iff_exists'.mp fun hr => (hnone n).mp hr hn⟩

/-- On the disk of `loopBuffer` the loop does not end. -/
theorem handleLegacy_loops : ¬ ∀ (size blockSize : Nat) (content : Nat → ReadReply)
    (buffer : Buffer) (ps : Partitions), ∃ fuel r,
      handleLegacy (contentDevice size blockSize content) fuel buffer ps = some r := by
  intro h
  have hends := (handleLegacy_ends 0x10000 512 (fun _ => ⟨none, 512, loopBuffer⟩) loopBuffer
    fun _ => ⟨0, 0, 0⟩).mp (h _ _ _ _ _)
  exact hends 1 (by decide) ⟨1, 2, 2, by decide, by decide, by decide,
    by decide, by decide⟩

/-! ## What a scan has read -/

/-- The reads of the loop over the extended boot records, each with its
number and its sector. -/
def extendedReads (dev : Device) (base : Nat) :
    (fuel lba ebrCount k : Nat) → Partitions → List (Nat × Nat)
  | 0, _, _, _, _ => []
  | fuel + 1, lba, ebrCount, k, ps =>
    (k, lba) :: match recordStep dev base k lba ebrCount ps with
      | .error _ => []
      | .ok (lba, ebrCount, ps) => extendedReads dev base fuel lba ebrCount (k + 1) ps

def legacyReads (dev : Device) (fuel : Nat) (buffer : Buffer) (ps : Partitions) :
    List (Nat × Nat) :=
  match readLegacyTable buffer false with
  | none => []
  | some table =>
    match primary dev ((range 4).zip table) ps none with
    | some (ps, some ebr) => extendedReads dev ebr.lba fuel ebr.lba 0 2 ps
    | _ => []

/-- The reads of `handle_device`. -/
def scanReads (dev : Device) (fuel : Nat) : List (Nat × Nat) :=
  (0, 1) :: match readSector dev 0 1 with
    | (.ok, buffer) =>
      if isGuid buffer then []
      else
        (1, 0) :: match readSector dev 1 0 with
          | (.ok, buffer) => legacyReads dev fuel buffer fun _ => ⟨0, 0, 0⟩
          | _ => []
    | _ => []

def replyTo (dev : Device) (x : Nat × Nat) : ReadReply := dev.read x.1 (w64 (x.2 * dev.blockSize))

/-- `n_read` returned `0` with the full block size. -/
def Complete (dev : Device) (x : Nat × Nat) : Prop :=
  (replyTo dev x).error = none ∧ (replyTo dev x).size = dev.blockSize

/-- A read that is not complete returns an error and another size. -/
def Honest (dev : Device) (x : Nat × Nat) : Prop :=
  ¬ Complete dev x → (replyTo dev x).error ≠ none ∧ (replyTo dev x).size ≠ dev.blockSize

/-- The sector that was read describes a partition: the sector 0 by a primary
entry, an extended boot record by its first entry. -/
def Describes (dev : Device) (x : Nat × Nat) (p : HddPartition) : Prop :=
  (x = (1, 0) ∧ ∃ table, readLegacyTable (replyTo dev x).buffer false = some table ∧
    ∃ e ∈ table, e.type ≠ 0 ∧ p = ⟨e.lba * 512, e.sectors * 512, e.type⟩) ∨
  (2 ≤ x.1 ∧ ∃ e ebr, recordEntries (replyTo dev x).buffer = some (e, ebr) ∧ e.type ≠ 0 ∧
    p = ⟨w64 ((x.2 + e.lba) * 512), e.sectors * 512, e.type⟩)

/-- Every partition that was mounted is described by a sector that was read
completely, and a scan with a read that was not complete returns an error. -/
def NeverTrusts (dev : Device) (fuel : Nat) (r : Code) (mounted : List HddPartition) : Prop :=
  (∀ p ∈ mounted, ∃ x ∈ scanReads dev fuel, Complete dev x ∧ Describes dev x p) ∧
    ((∃ x ∈ scanReads dev fuel, ¬ Complete dev x) → r ≠ .ok)

theorem complete_of_readSector {k : Nat} {buffer : Buffer} (hh : Honest dev (k, lba))
    (h : readSector dev k lba = (.ok, buffer)) :
    Complete dev (k, lba) ∧ (replyTo dev (k, lba)).buffer = buffer := by
  rw [readSector] at h
  have hbuf : (replyTo dev (k, lba)).buffer = buffer := by
    split at h
    · exact (Prod.mk.inj h).2
    · split at h
      · cases (Prod.mk.inj h).1
      · exact (Prod.mk.inj h).2
  refine ⟨?_, hbuf⟩
  by_contra hc
  obtain ⟨herr, hsize⟩ := hh hc
  split at h
  · next hnone => exact herr hnone
  · rw [if_pos (show (dev.read k (w64 (lba * dev.blockSize))).size ≠ dev.blockSize from hsize)] at h
    cases (Prod.mk.inj h).1

theorem primary_described {es : List (Nat × HddLegacyEntry)} :
    ∀ {ps ps' : Partitions} {ebr ebr' : Option HddLegacyEntry},
      primary dev es ps ebr = some (ps', ebr') → ∀ i, ps' i = ps i ∨
        ∃ x ∈ es, x.2.type ≠ 0 ∧ ps' i = ⟨x.2.lba * 512, x.2.sectors * 512, x.2.type⟩ := by
  induction es with
  | nil =>
    intro ps ps' ebr ebr' h i
    obtain ⟨rfl, -⟩ := Prod.mk.inj (some.inj h)
    exact .inl rfl
  | cons x es ih =>
    obtain ⟨n, e⟩ := x
    intro ps ps' ebr ebr' h i
    have htail : ∀ {ps1 : Partitions} {ebr1 : Option HddLegacyEntry},
        primary dev es ps1 ebr1 = some (ps', ebr') → ps' i = ps1 i ∨
          ∃ x ∈ (n, e) :: es, x.2.type ≠ 0 ∧
            ps' i = ⟨x.2.lba * 512, x.2.sectors * 512, x.2.type⟩ := by
      intro ps1 ebr1 h1
      rcases ih h1 i with heq | ⟨x, hx, hrest⟩
      · exact .inl heq
      · exact .inr ⟨x, mem_cons_of_mem _ hx, hrest⟩
    rw [primary] at h
    by_cases htype : e.type = 0
    · rw [if_pos htype] at h
      exact htail h
    rw [if_neg htype] at h
    dsimp only at h
    split at h
    · cases h
    split at h
    · exact htail h
    rcases htail h with heq | hnew
    · by_cases hi : i = n + 1
      · subst hi
        rw [update_self] at heq
        exact .inr ⟨(n, e), mem_cons_self, htype, heq⟩
      · rw [update_of_ne hi] at heq
        exact .inl heq
    · exact .inr hnew

/-- A record that does not end the scan with an error was read completely, and
describes the partition that it adds. -/
theorem recordStep_described {k ebrCount : Nat} {ps ps' : Partitions} (hk : 2 ≤ k)
    (hh : Honest dev (k, lba))
    (h : recordStep dev base k lba ebrCount ps = .error (.ok, ps') ∨ ∃ l c, recordStep dev base k lba ebrCount ps = .ok (l, c, ps')) :
    Complete dev (k, lba) ∧ ∀ i, ps' i = ps i ∨ Describes dev (k, lba) (ps' i) := by
  rw [recordStep] at h
  rcases hread : readSector dev k lba with ⟨r, buffer⟩
  rw [hread] at h
  cases r with
  | ok =>
    obtain ⟨hcomplete, hbuffer⟩ := complete_of_readSector hh hread
    refine ⟨hcomplete, ?_⟩
    dsimp only at h
    rcases hrec : recordEntries buffer with _ | ⟨e, ebr⟩
    · rw [hrec] at h
      rcases h with h | ⟨l, c, h⟩ <;> cases h
    rw [hrec] at h
    have hend : ∀ {ps1 : Partitions} {c1 : Nat}, (recordEnd base ebr c1 ps1 = .error (.ok, ps') ∨
          ∃ l c, recordEnd base ebr c1 ps1 = .ok (l, c, ps')) → ps' = ps1 := by
      intro ps1 c1 h1
      unfold recordEnd at h1
      rcases h1 with h1 | ⟨l, c, h1⟩
      · split at h1
        · exact ((Prod.mk.inj (Except.error.inj h1)).2).symm
        · split at h1 <;> cases h1
      split at h1
      · cases h1
      · split at h1
        · cases h1
        · exact ((Prod.mk.inj (Prod.mk.inj (Except.ok.inj h1)).2).2).symm
    dsimp only at h
    rw [recordBody] at h
    intro i
    by_cases htype : e.type = 0
    · rw [if_pos htype] at h
      exact .inl (congrFun (hend h) i)
    rw [if_neg htype] at h
    rcases hlogical : logical dev lba ebrCount e ps with _ | ps1
    · rw [hlogical] at h
      rcases h with h | ⟨l, c, h⟩ <;> cases h
    rw [hlogical] at h
    dsimp only at h
    have hps1 : ps' = ps1 := by
      by_cases hfull : hddPartitionCount ≤ ebrCount + 1 + 4
      · rw [if_pos hfull] at h
        rcases h with h | ⟨l, c, h⟩
        · exact ((Prod.mk.inj (Except.error.inj h)).2).symm
        · cases h
      · rw [if_neg hfull] at h
        exact hend h
    subst hps1
    simp only [logical] at hlogical
    split at hlogical
    · cases hlogical
    split at hlogical
    · exact .inl (congrFun (some.inj hlogical).symm i)
    obtain rfl := some.inj hlogical
    by_cases hi : i = ebrCount + 1 + 4
    · subst hi
      rw [update_self]
      exact .inr (.inr ⟨hk, e, ebr, hbuffer ▸ hrec, htype, rfl⟩)
    · rw [update_of_ne hi]
      exact .inl rfl
  | unsupported | blockRead | busy | node r => rcases h with h | ⟨l, c, h⟩ <;> cases h

/-- The loop over the extended boot records, when it ends without an error. -/
theorem extended_described (fuel : Nat) :
    ∀ {lba ebrCount k : Nat} {ps ps' : Partitions}, 2 ≤ k →
      (∀ x ∈ extendedReads dev base fuel lba ebrCount k ps, Honest dev x) →
      extended dev base fuel lba ebrCount k ps = some (.ok, ps') →
      (∀ x ∈ extendedReads dev base fuel lba ebrCount k ps, Complete dev x) ∧ ∀ i, ps' i = ps i ∨
          ∃ x ∈ extendedReads dev base fuel lba ebrCount k ps, Describes dev x (ps' i) := by
  induction fuel with
  | zero =>
    intro lba ebrCount k ps ps' _ _ h
    rw [extended] at h
    cases h
  | succ fuel ih =>
    intro lba ebrCount k ps ps' hk hh h
    rw [extended_succ] at h
    rw [extendedReads] at hh ⊢
    have hhead : Honest dev (k, lba) := hh _ mem_cons_self
    rcases hstep : recordStep dev base k lba ebrCount ps with ⟨r, ps1⟩ | ⟨lba1, ebrCount1, ps1⟩
    · rw [hstep] at h
      obtain ⟨rfl, rfl⟩ := Prod.mk.inj (some.inj h)
      obtain ⟨hcomplete, hdesc⟩ := recordStep_described hk hhead (.inl hstep)
      refine ⟨?_, fun i => (hdesc i).imp_right fun hd => ⟨_, mem_cons_self, hd⟩⟩
      intro x hx
      rwa [mem_singleton.mp hx]
    · simp only [hstep] at h hh ⊢
      obtain ⟨hcomplete, hdesc⟩ := recordStep_described hk hhead (.inr ⟨_, _, hstep⟩)
      obtain ⟨hall, hrest⟩ := ih (by omega) (fun x hx => hh x (.tail _ hx)) h
      refine ⟨?_, fun i => ?_⟩
      · intro x hx
        rcases mem_cons.mp hx with rfl | hx
        · exact hcomplete
        · exact hall x hx
      · rcases hrest i with heq | ⟨x, hx, hd⟩
        · rw [heq]
          exact (hdesc i).imp_right fun hd => ⟨_, mem_cons_self, hd⟩
        · exact .inr ⟨x, mem_cons_of_mem _ hx, hd⟩

theorem handleLegacy_described {fuel : Nat} {buffer : Buffer} {ps ps' : Partitions}
    (hbuffer : (replyTo dev (1, 0)).buffer = buffer)
    (hh : ∀ x ∈ legacyReads dev fuel buffer ps, Honest dev x)
    (h : handleLegacy dev fuel buffer ps = some (.ok, ps')) :
    (∀ x ∈ legacyReads dev fuel buffer ps, Complete dev x) ∧
      ∀ i, ps' i = ps i ∨ Describes dev (1, 0) (ps' i) ∨
        ∃ x ∈ legacyReads dev fuel buffer ps, Describes dev x (ps' i) := by
  unfold handleLegacy at h
  rw [legacyReads] at hh ⊢
  rcases htable : readLegacyTable buffer false with _ | table
  · rw [htable] at h
    cases h
  simp only [htable] at h hh ⊢
  have hfirst : ∀ {ps1 : Partitions} {ebr1 : Option HddLegacyEntry},
      primary dev ((range 4).zip table) ps none = some (ps1, ebr1) → ∀ i,
        ps1 i = ps i ∨ Describes dev (1, 0) (ps1 i) := by
    intro ps1 ebr1 h1 i
    refine (primary_described h1 i).imp_right ?_
    rintro ⟨x, hx, htype, heq⟩
    exact .inl ⟨rfl, table, hbuffer ▸ htable, x.2, (of_mem_zip hx).2, htype, heq⟩
  rcases hprimary : primary dev ((range 4).zip table) ps none with _ | ⟨ps1, _ | ebr⟩
  · rw [hprimary] at h
    cases h
  · rw [hprimary] at h
    obtain rfl := (Prod.mk.inj (some.inj h)).2
    exact ⟨fun x hx => (by cases hx), fun i => (hfirst hprimary i).imp_right .inl⟩
  simp only [hprimary] at h hh ⊢
  obtain ⟨hall, hdesc⟩ := extended_described fuel (le_refl 2) hh h
  refine ⟨hall, fun i => ?_⟩
  rcases hdesc i with heq | hd
  · rw [heq]
    exact (hfirst hprimary i).imp_right .inl
  · exact .inr (.inr hd)

/-- A scan comes to an error before it mounts anything, or all of its reads
were complete and describe what it mounts. -/
theorem handleDevice_described {mount : Nat → Code} {fuel : Nat} {r : Code}
    {mounted : List HddPartition} (hh : ∀ x ∈ scanReads dev fuel, Honest dev x)
    (h : handleDevice dev mount fuel = some (r, mounted)) :
    (r ≠ .ok ∧ mounted = []) ∨ ((∀ x ∈ scanReads dev fuel, Complete dev x) ∧
      ∀ p ∈ mounted, ∃ x ∈ scanReads dev fuel, Describes dev x p) := by
  have hfail : ∀ {c : Code}, c ≠ .ok →
      (some (c, ([] : List HddPartition)) = some (r, mounted)) → r ≠ .ok ∧ mounted = [] := by
    intro c hc heq
    obtain ⟨rfl, rfl⟩ := Prod.mk.inj (some.inj heq)
    exact ⟨hc, rfl⟩
  unfold handleDevice at h
  rw [scanReads] at hh ⊢
  rcases hread0 : readSector dev 0 1 with ⟨r0, buffer0⟩
  simp only [hread0] at h hh ⊢
  cases r0 with
  | ok =>
    obtain ⟨hc0, -⟩ := complete_of_readSector (hh _ mem_cons_self) hread0
    dsimp only at h hh ⊢
    by_cases hguid : isGuid buffer0 = true
    · rw [if_pos hguid] at h
      exact .inl (hfail (by decide) h)
    rw [if_neg hguid] at h hh ⊢
    rcases hread1 : readSector dev 1 0 with ⟨r1, buffer1⟩
    simp only [hread1] at h hh ⊢
    cases r1 with
    | ok =>
      obtain ⟨hc1, hbuffer⟩ := complete_of_readSector
        (hh _ (.tail _ mem_cons_self)) hread1
      dsimp only at h hh ⊢
      rcases hlegacy : handleLegacy dev fuel buffer1 fun _ => ⟨0, 0, 0⟩ with _ | ⟨c, ps⟩
      · rw [hlegacy] at h
        cases h
      rw [hlegacy] at h
      cases c with
      | ok =>
        dsimp only at h
        by_cases hclash : anyClash ps = true
        · rw [if_pos hclash] at h
          exact .inl (hfail (by decide) h)
        rw [if_neg hclash] at h
        obtain ⟨hall, hdesc⟩ := handleLegacy_described hbuffer
          (fun x hx => hh x (.tail _ (.tail _ hx))) hlegacy
        refine .inr ⟨?_, ?_⟩
        · intro x hx
          rcases mem_cons.mp hx with rfl | hx
          · exact hc0
          rcases mem_cons.mp hx with rfl | hx
          · exact hc1
          · exact hall x hx
        · intro p hp
          obtain ⟨js, -, heq, hne⟩ := mountAll_spec mount ps indices
          have hmounted : mounted = js.map ps := by rw [← heq, some.inj h]
          obtain ⟨j, hj, rfl⟩ := mem_map.mp (hmounted ▸ hp)
          rcases hdesc j with hzero | hd | ⟨x, hx, hd⟩
          · exact absurd (congrArg HddPartition.offset hzero) (hne j hj)
          · exact ⟨(1, 0), mem_cons_of_mem _ mem_cons_self, hd⟩
          · exact ⟨x, mem_cons_of_mem _ (.tail _ hx), hd⟩
      | unsupported => exact .inl (hfail (by decide) h)
      | blockRead => exact .inl (hfail (by decide) h)
      | busy => exact .inl (hfail (by decide) h)
      | node n => exact .inl (hfail (by simp) h)
    | unsupported | blockRead | busy => exact .inl (hfail (by decide) h)
    | node n => exact .inl (hfail (by simp) h)
  | unsupported | blockRead | busy => exact .inl (hfail (by decide) h)
  | node n => exact .inl (hfail (by simp) h)

/-- A scan trusts no read that was not complete if each of those returned an
error with another size, and a scan without an error only then. -/
theorem scan_trusts {dev : Device} {mount : Nat → Code} {fuel : Nat} {r : Code}
    {mounted : List HddPartition} (h : handleDevice dev mount fuel = some (r, mounted)) :
    ((∀ x ∈ scanReads dev fuel, Honest dev x) → NeverTrusts dev fuel r mounted) ∧ (r = .ok →
        (NeverTrusts dev fuel r mounted ↔ ∀ x ∈ scanReads dev fuel, Honest dev x)) := by
  have hsound : (∀ x ∈ scanReads dev fuel, Honest dev x) → NeverTrusts dev fuel r mounted := by
    intro hh
    rcases handleDevice_described hh h with ⟨hr, rfl⟩ | ⟨hall, hdesc⟩
    · exact ⟨fun p hp => (by cases hp), fun _ => hr⟩
    · refine ⟨fun p hp => ?_, fun ⟨x, hx, hbad⟩ => absurd (hall x hx) hbad⟩
      obtain ⟨x, hx, hd⟩ := hdesc p hp
      exact ⟨x, hx, hall x hx, hd⟩
  refine ⟨hsound, fun hok => ⟨fun hnever x hx hbad => ?_, hsound⟩⟩
  exact absurd hok (hnever.2 ⟨x, hx, hbad⟩)

theorem scan_trusts_two :
    NeverTrusts twoPartitions 0 .ok [⟨512, 4096, 0x83⟩, ⟨4608, 4096, 0x83⟩] := by
  have hd : handleDevice twoPartitions (fun _ => .ok) 0 =
      some (.ok, [⟨512, 4096, 0x83⟩, ⟨4608, 4096, 0x83⟩]) := by decide
  exact (scan_trusts hd).1 fun x _ hbad => absurd ⟨rfl, rfl⟩ hbad

/-- The disk of `twoPartitions`, whose reads return `0` and no byte: the
buffer still holds what it held before. -/
def staleDevice : Device where
  size := 0x10000
  blockSize := 512
  read k offset := ⟨none, 0, (twoPartitions.read k offset).buffer⟩

/-- Partitions are mounted from it. -/
theorem scan_trusts_stale : ¬ ∀ (dev : Device) (mount : Nat → Code) (fuel : Nat) (r : Code)
    (mounted : List HddPartition), handleDevice dev mount fuel = some (r, mounted) →
      NeverTrusts dev fuel r mounted := by
  intro h
  have hd : handleDevice staleDevice (fun _ => .ok) 0 =
      some (.ok, [⟨512, 4096, 0x83⟩, ⟨4608, 4096, 0x83⟩]) := by decide
  refine (h _ _ _ _ _ hd).2 ⟨(0, 1), mem_cons_self, ?_⟩ rfl
  rintro ⟨-, hsize⟩
  cases hsize

end Dancy.Disk
